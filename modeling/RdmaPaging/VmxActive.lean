import RdmaPaging.VmxCore

/-!
Every VMCS is active on one processor at a time, and the per-processor and per-VCPU
records agree whenever no thread is inside `vmx_get_cpu`.
-/

namespace RdmaPaging

variable {Cpu Vcpu : Type}

/-- Between the clearing of the VMCS and its load on the new processor. -/
@[grind =] def GetStage.isCleared : GetStage Cpu → Bool
  | .cleared _ => true
  | _ => false

/-- `named` is about `local_vcpu`, `placed` about the threads that have disabled preemption,
and `launch` about the field `launched`, which is stale while the VMCS moves. -/
structure VmxInv (state : Vmx Cpu Vcpu) : Prop where
  named : ∀ cur vcpu, state.localVcpu cur = some vcpu → state.live vcpu = true ∧
    ((state.stage vcpu).inBody = true ∧ (state.stage vcpu).pinned = some cur ∨
      state.cpu vcpu = some cur ∧ state.current cur = some vcpu)
  placed : ∀ cur vcpu, (state.stage vcpu).pinned = some cur →
    state.pinnedBy cur = some vcpu ∧ state.localVcpu cur = some vcpu
  homes : ∀ cur vcpu, state.active cur vcpu = true →
    state.live vcpu = true ∧ state.cpu vcpu = some cur
  loaded : ∀ cur vcpu, state.current cur = some vcpu → state.active cur vcpu = true
  called : ∀ vcpu cur target, state.stage vcpu = .calling cur target →
    state.cpu vcpu = some target ∧ target ≠ cur
  inactive : ∀ vcpu, (state.stage vcpu).isCleared = true →
    ∀ other, state.active other vcpu = false
  launch : ∀ vcpu, state.live vcpu = true → state.launched vcpu = true →
    (state.stage vcpu).isCleared = true ∨ (state.clearedSince vcpu = false ∧
      (state.fail vcpu = false → state.vmcsLaunched vcpu = true))
  bugOn : state.bugOn = false

theorem bootVmx_inv : VmxInv (bootVmx Cpu Vcpu) := by
  constructor <;> simp [bootVmx, GetStage.pinned, GetStage.isCleared]

variable {state : Vmx Cpu Vcpu} {vcpu : Vcpu} {cur target : Cpu}

/-- A thread between `vmx_get_cpu` and `vmx_put_cpu` has its VMCS loaded. -/
theorem VmxInv.holding (inv : VmxInv state) (holds : state.stage vcpu = .holding cur) :
    state.live vcpu = true ∧ state.pinnedBy cur = some vcpu ∧ state.localVcpu cur = some vcpu ∧
      state.cpu vcpu = some cur ∧ state.current cur = some vcpu := by
  obtain ⟨pinned, isLocal⟩ := inv.placed cur vcpu (by rw [holds]; rfl)
  obtain ⟨live, inBody | home⟩ := inv.named cur vcpu isLocal
  · rw [holds] at inBody
    exact absurd inBody.1 (by simp [GetStage.inBody])
  · exact ⟨live, pinned, isLocal, home⟩

theorem VmxInv.entered (inv : VmxInv state) (pinned : (state.stage vcpu).pinned = some cur) :
    state.live vcpu = true ∧ state.pinnedBy cur = some vcpu ∧
      state.localVcpu cur = some vcpu := by
  obtain ⟨pinnedHere, isLocal⟩ := inv.placed cur vcpu pinned
  exact ⟨(inv.named cur vcpu isLocal).1, pinnedHere, isLocal⟩

theorem VmxInv.absent (inv : VmxInv state) (absent : state.live vcpu = false) (cur : Cpu) :
    state.localVcpu cur ≠ some vcpu ∧ state.active cur vcpu = false ∧
      state.current cur ≠ some vcpu := by
  have unnamed : state.localVcpu cur ≠ some vcpu := by
    intro isLocal
    have live := (inv.named cur vcpu isLocal).1
    simp [absent] at live
  have inactive : state.active cur vcpu = false := by
    by_contra active
    have live := (inv.homes cur vcpu (by simpa using active)).1
    simp [absent] at live
  refine ⟨unnamed, inactive, fun isCurrent => ?_⟩
  have active := inv.loaded cur vcpu isCurrent
  simp [inactive] at active

variable [DecidableEq Vcpu]

theorem VmxInv.createVcpu (inv : VmxInv state) (garbage : Bool) (absent : state.live vcpu = false) :
    VmxInv (vmxCreateVcpu state vcpu garbage) := by
  have unnamed := inv.absent absent
  obtain ⟨named, placed, homes, loaded, called, inactive, launch, bugOn⟩ := inv
  constructor <;> simp only [vmxCreateVcpu, Vmx.setStage, Function.update_apply]
  case bugOn => exact bugOn
  all_goals grind [GetStage.pinned, GetStage.inBody, GetStage.isCleared]

theorem VmxInv.runVcpu (inv : VmxInv state) (entryOk : Bool)
    (holds : state.stage vcpu = .holding cur) : VmxInv (vmxRunVcpu state vcpu cur entryOk) := by
  have held := inv.holding holds
  obtain ⟨named, placed, homes, loaded, called, inactive, launch, bugOn⟩ := inv
  constructor <;> simp only [vmxRunVcpu, entrySucceeds, held, Function.update_apply]
  case bugOn => exact bugOn
  all_goals grind [GetStage.pinned, GetStage.inBody, GetStage.isCleared]

variable [DecidableEq Cpu]

theorem VmxInv.getCpu (inv : VmxInv state) (live : state.live vcpu = true)
    (outside : state.stage vcpu = .outside) (free : state.pinnedBy cur = none) :
    VmxInv (getCpu state vcpu cur) := by
  have unpinned : ∀ other, (state.stage other).pinned ≠ some cur := by
    intro other pinned
    have here := (inv.placed cur other pinned).1
    simp [free] at here
  obtain ⟨named, placed, homes, loaded, called, inactive, launch, bugOn⟩ := inv
  unfold RdmaPaging.getCpu
  by_cases isLocal : state.localVcpu cur = some vcpu
  · have home : state.cpu vcpu = some cur ∧ state.current cur = some vcpu := by
      rcases (named cur vcpu isLocal).2 with ⟨inBody, _⟩ | home
      · simp [outside, GetStage.inBody] at inBody
      · exact home
    rw [if_pos isLocal]
    constructor <;> simp only [Vmx.setStage, Function.update_apply]
    case bugOn => exact bugOn
    all_goals grind [GetStage.pinned, GetStage.inBody, GetStage.isCleared]
  · rw [if_neg isLocal]
    constructor <;> simp only [Vmx.setStage, Function.update_apply]
    case bugOn => exact bugOn
    all_goals grind [GetStage.pinned, GetStage.inBody, GetStage.isCleared]

theorem VmxInv.compareCpu (inv : VmxInv state) (entered : state.stage vcpu = .entered cur) :
    VmxInv (compareCpu state vcpu cur) := by
  have here := inv.entered (by rw [entered]; rfl : (state.stage vcpu).pinned = some cur)
  obtain ⟨named, placed, homes, loaded, called, inactive, launch, bugOn⟩ := inv
  unfold RdmaPaging.compareCpu
  split
  · rename_i homeless
    have nowhere : ∀ other, state.active other vcpu = false := by
      intro other
      by_contra active
      have home := (homes other vcpu (by simpa using active)).2
      simp [homeless] at home
    constructor <;> simp only [vmcsClear, Vmx.setStage, Function.update_apply]
    case bugOn => exact bugOn
    all_goals grind [GetStage.pinned, GetStage.inBody, GetStage.isCleared]
  · split
    · constructor <;> simp only [vmcsLoad, Vmx.setStage, Function.update_apply]
      case bugOn => exact bugOn
      all_goals grind [GetStage.pinned, GetStage.inBody, GetStage.isCleared]
    · constructor <;> simp only [Vmx.setStage, Function.update_apply]
      case bugOn => exact bugOn
      all_goals grind [GetStage.pinned, GetStage.inBody, GetStage.isCleared]

/-- The helper clears the VMCS on the one processor where it is active. -/
theorem VmxInv.getCpuHelper (inv : VmxInv state) (calling : state.stage vcpu = .calling cur target) :
    VmxInv (vmxGetCpuHelper state vcpu cur target) := by
  have here := inv.entered (by rw [calling]; rfl : (state.stage vcpu).pinned = some cur)
  obtain ⟨home, elsewhere⟩ := inv.called vcpu cur target calling
  have onlyTarget : ∀ other, state.active other vcpu = true → other = target := by
    intro other active
    have placed := (inv.homes other vcpu active).2
    rw [home, Option.some.injEq] at placed
    exact placed.symm
  obtain ⟨named, placed, homes, loaded, called, inactive, launch, bugOn⟩ := inv
  constructor <;> simp only [vmxGetCpuHelper, vmcsClear, Vmx.setStage, Function.update_apply]
  case bugOn => simp [bugOn, home]
  all_goals grind [GetStage.pinned, GetStage.inBody, GetStage.isCleared]

theorem VmxInv.loadVmcs (inv : VmxInv state) (cleared : state.stage vcpu = .cleared cur) :
    VmxInv (loadVmcs state vcpu cur) := by
  have here := inv.entered (by rw [cleared]; rfl : (state.stage vcpu).pinned = some cur)
  have nowhere := inv.inactive vcpu (by rw [cleared]; rfl)
  obtain ⟨named, placed, homes, loaded, called, inactive, launch, bugOn⟩ := inv
  constructor <;> simp only [RdmaPaging.loadVmcs, vmcsLoad, Vmx.setStage, Function.update_apply]
  case bugOn => exact bugOn
  all_goals grind [GetStage.pinned, GetStage.inBody, GetStage.isCleared]

theorem VmxInv.putCpu (inv : VmxInv state) (holds : state.stage vcpu = .holding cur) :
    VmxInv (vmxPutCpu state vcpu cur) := by
  have held := inv.holding holds
  obtain ⟨named, placed, homes, loaded, called, inactive, launch, bugOn⟩ := inv
  constructor <;> simp only [vmxPutCpu, Vmx.setStage, Function.update_apply]
  case bugOn => exact bugOn
  all_goals grind [GetStage.pinned, GetStage.inBody, GetStage.isCleared]

theorem VmxInv.destroyVcpu (inv : VmxInv state) (holds : state.stage vcpu = .holding cur) :
    VmxInv (vmxDestroyVcpu state vcpu cur) := by
  have held := inv.holding holds
  have onlyHere : ∀ other, state.active other vcpu = true → other = cur := by
    intro other active
    have placed := (inv.homes other vcpu active).2
    rw [held.2.2.2.1, Option.some.injEq] at placed
    exact placed.symm
  obtain ⟨named, placed, homes, loaded, called, inactive, launch, bugOn⟩ := inv
  constructor <;>
    simp only [vmxDestroyVcpu, vmxPutCpu, vmcsClear, Vmx.setStage, Function.update_apply]
  case bugOn => exact bugOn
  all_goals grind [GetStage.pinned, GetStage.inBody, GetStage.isCleared]

theorem VmxInv.step {action : VmxAction Cpu Vcpu} {next : Vmx Cpu Vcpu} (inv : VmxInv state)
    (stepped : vmxStep state action = some next) : VmxInv next := by
  cases action with
  | createVcpu vcpu garbage =>
      simp only [vmxStep, Option.ite_none_left_eq_some, Option.some.injEq] at stepped
      obtain ⟨absent, rfl⟩ := stepped
      exact inv.createVcpu garbage (by simpa using absent)
  | getCpu vcpu cur =>
      simp only [vmxStep, Option.ite_none_right_eq_some, Option.some.injEq] at stepped
      obtain ⟨⟨live, outside, free⟩, rfl⟩ := stepped
      exact inv.getCpu live outside free
  | compareCpu vcpu =>
      simp only [vmxStep] at stepped
      split at stepped
      · rename_i cur entered
        obtain rfl := Option.some.inj stepped
        exact inv.compareCpu entered
      · simp at stepped
  | getCpuHelper vcpu =>
      simp only [vmxStep] at stepped
      split at stepped
      · rename_i cur target calling
        obtain rfl := Option.some.inj stepped
        exact inv.getCpuHelper calling
      · simp at stepped
  | loadVmcs vcpu =>
      simp only [vmxStep] at stepped
      split at stepped
      · rename_i cur cleared
        obtain rfl := Option.some.inj stepped
        exact inv.loadVmcs cleared
      · simp at stepped
  | runVcpu vcpu entryOk =>
      simp only [vmxStep] at stepped
      split at stepped
      · rename_i cur holds
        simp only [Option.ite_none_left_eq_some, Option.some.injEq] at stepped
        obtain ⟨_, rfl⟩ := stepped
        exact inv.runVcpu entryOk holds
      · simp at stepped
  | putCpu vcpu =>
      simp only [vmxStep] at stepped
      split at stepped
      · rename_i cur holds
        obtain rfl := Option.some.inj stepped
        exact inv.putCpu holds
      · simp at stepped
  | destroyVcpu vcpu =>
      simp only [vmxStep] at stepped
      split at stepped
      · rename_i cur holds
        obtain rfl := Option.some.inj stepped
        exact inv.destroyVcpu holds
      · simp at stepped

theorem reaches_vmxInv {guard : Vmx Cpu Vcpu → VmxAction Cpu Vcpu → Prop} {final : Vmx Cpu Vcpu}
    (reached : Machine.Reaches vmxStep guard (bootVmx Cpu Vcpu) final) : VmxInv final :=
  reached.invariant VmxInv bootVmx_inv fun _ _ _ inv _ stepped => inv.step stepped

/-- In every run of any number of threads on any number of processors: outside the body of
`vmx_get_cpu` a processor's `local_vcpu` lives there with its VMCS loaded, no VMCS is active
away from its VCPU's processor, `launched` is not stale, and the helper's assertion holds. A
failed VM entry also sets `launched`; every other time the VMCS really is launched. -/
theorem vmcs_active_on_one_cpu {final : Vmx Cpu Vcpu}
    (reached : Machine.Reaches vmxStep (fun _ _ => True) (bootVmx Cpu Vcpu) final) :
    (∀ cur vcpu, final.localVcpu cur = some vcpu → (final.stage vcpu).inBody = false →
      final.cpu vcpu = some cur ∧ final.current cur = some vcpu) ∧
    (∀ cur vcpu, final.active cur vcpu = true → final.cpu vcpu = some cur) ∧
    (∀ vcpu, final.live vcpu = true → (final.stage vcpu).inBody = false →
      final.launched vcpu = true → final.clearedSince vcpu = false ∧
        (final.fail vcpu = false → final.vmcsLaunched vcpu = true)) ∧
    final.bugOn = false ∧
    (∀ cur vcpu, final.localVcpu cur = some vcpu → final.live vcpu = true) := by
  have inv := reaches_vmxInv reached
  refine ⟨fun cur vcpu isLocal outside => ?_, fun cur vcpu active => (inv.homes cur vcpu active).2,
    fun vcpu live outside launched => ?_, inv.bugOn, fun cur vcpu isLocal =>
      (inv.named cur vcpu isLocal).1⟩
  · rcases (inv.named cur vcpu isLocal).2 with ⟨inBody, _⟩ | home
    · simp [outside] at inBody
    · exact home
  · rcases inv.launch vcpu live launched with moving | fresh
    · have inBody : (final.stage vcpu).inBody = true := by
        revert moving
        cases final.stage vcpu <;> simp [GetStage.isCleared, GetStage.inBody]
      simp [outside] at inBody
    · exact fresh

/-- VCPU 0 runs on processor 0, makes way for VCPU 1 there, and moves to processor 1. -/
def migration : List (VmxAction Nat Nat) :=
  [.createVcpu 0 true, .getCpu 0 0, .compareCpu 0, .loadVmcs 0, .runVcpu 0 true, .putCpu 0,
    .createVcpu 1 true, .getCpu 1 0, .compareCpu 1, .loadVmcs 1, .runVcpu 1 true, .putCpu 1,
    .getCpu 0 1, .compareCpu 0, .getCpuHelper 0, .loadVmcs 0, .runVcpu 0 true]

theorem vmcs_active_on_one_cpu_migration :
    ∃ final, Machine.checkedRun vmxStep (fun _ _ => true) (bootVmx Nat Nat) migration = some final ∧
      final.localVcpu 1 = some 0 ∧ final.localVcpu 0 = some 1 ∧ final.current 1 = some 0 ∧
      final.active 0 0 = false ∧ final.bugOn = false := by
  refine ⟨_, rfl, rfl, rfl, ?_, rfl, ?_⟩
  · exact ((vmcs_active_on_one_cpu (Machine.reaches_of_checkedRun (fun _ _ => true) migration
      (fun _ _ _ => trivial) rfl)).1 1 0 rfl rfl).2
  · exact (vmcs_active_on_one_cpu (Machine.reaches_of_checkedRun (fun _ _ => true) migration
      (fun _ _ _ => trivial) rfl)).2.2.2.1

end RdmaPaging
