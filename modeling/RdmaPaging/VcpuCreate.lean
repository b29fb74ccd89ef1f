import RdmaPaging.EptBalance
import RdmaPaging.VcpuVpids
import RdmaPaging.VmxCore

/-!
A whole call of `vmx_create_vcpu`, from any state of the processors and of the VPID bitmap,
and what it leaves behind when it fails.
-/

namespace RdmaPaging

open Function (update)

variable {Cpu Vcpu : Type} [DecidableEq Cpu] [DecidableEq Vcpu]

/-- `vmx_get_cpu` on `cur`, from its start to its end. -/
def vmxGetCpu (state : Vmx Cpu Vcpu) (vcpu : Vcpu) (cur : Cpu) : Vmx Cpu Vcpu :=
  let entered := getCpu state vcpu cur
  match entered.stage vcpu with
  | .entered _ =>
      let compared := compareCpu entered vcpu cur
      match compared.stage vcpu with
      | .calling _ target => loadVmcs (vmxGetCpuHelper compared vcpu cur target) vcpu cur
      | .cleared _ => loadVmcs compared vcpu cur
      | _ => compared
  | _ => entered

/-- `vmx_create_ept`: the registration of the notifier. If it fails, the EPT is freed. -/
def vmxCreateEpt (registered : Bool) (ept : Ept) : Bool × Ept :=
  if registered then (true, ept) else (false, vmxFreeEpt ept)

structure Host (Cpu Vcpu : Type) where
  vmx : Vmx Cpu Vcpu
  vpids : VpidBitmap

/-- What the host answers during a creation: whether there is memory for the VMCS, what the
new region holds, the page for the root of the EPT, whether the notifier is registered, and
the processor on which `vmx_get_cpu` runs. -/
structure CreateCalls (Cpu : Type) where
  vmcsOk : Bool
  garbage : Bool
  root : Option PageFrame
  registered : Bool
  cur : Cpu

/-- The label or the call at which a creation fails. -/
inductive CreateFailure
  | vmcs
  | vpid
  | eptRoot
  | notifier
  deriving DecidableEq

def kfree (state : Vmx Cpu Vcpu) (vcpu : Vcpu) : Vmx Cpu Vcpu :=
  { state with live := update state.live vcpu false }

/-- `vmx_create_vcpu`, after `kmalloc` returned `vcpu`: its outcome, what it leaves and the EPT
that it made. `mem` is what the pages of the host hold. -/
def createVcpu (nrVpids : Nat) (calls : CreateCalls Cpu) (mem : PhysAddr → Nat → Epte)
    (vcpu : Vcpu) (host : Host Cpu Vcpu) : Except CreateFailure Vcpu × Host Cpu Vcpu × Option Ept :=
  let started := vmxCreateVcpu host.vmx vcpu calls.garbage
  if calls.vmcsOk then
    match vmxAllocateVpid nrVpids host.vpids with
    | (true, _, vpids) => (.error .vpid, ⟨kfree started vcpu, vpids⟩, none)
    | (false, vpid, vpids) =>
        match vmxInitEpt mem calls.root with
        | .error _ => (.error .eptRoot, ⟨kfree started vcpu, vmxFreeVpid vpid vpids⟩, none)
        | .ok ept =>
            let loaded := vmxPutCpu (vmxGetCpu started vcpu calls.cur) vcpu calls.cur
            match vmxCreateEpt calls.registered ept with
            | (true, ept) => (.ok vcpu, ⟨loaded, vpids⟩, some ept)
            | (false, ept) =>
                (.error .notifier, ⟨kfree loaded vcpu, vmxFreeVpid vpid vpids⟩, some ept)
  else (.error .vmcs, ⟨kfree started vcpu, host.vpids⟩, none)

/-- Nothing names a VCPU, and its VMCS, if there is one, is on no processor. -/
structure Untraced (failure : CreateFailure) (vcpu : Vcpu) (state : Vmx Cpu Vcpu) : Prop where
  unnamed : ∀ cpu, state.localVcpu cpu ≠ some vcpu
  inactive : failure ≠ .vmcs → ∀ cpu, state.active cpu vcpu = false ∧ state.current cpu ≠ some vcpu

/-- A creation that failed left no trace. -/
structure NoTrace (failure : CreateFailure) (vcpu : Vcpu) (before after : Host Cpu Vcpu)
    (made : Option Ept) : Prop where
  untraced : Untraced failure vcpu after.vmx
  freedOnce : ∀ ept, made = some ept →
    ept.taken.Nodup ∧ ∀ page, ept.freed.count page = ept.taken.count page
  vpids : after.vpids = before.vpids

variable {nrVpids : Nat} {calls : CreateCalls Cpu} {mem : PhysAddr → Nat → Epte} {vcpu : Vcpu}
variable {host after : Host Cpu Vcpu} {failure : CreateFailure} {made : Option Ept}

/-- A VCPU that was on no processor yet is named on the one that loads it. -/
theorem vmxGetCpu_named (state : Vmx Cpu Vcpu) (vcpu : Vcpu) (cur : Cpu)
    (nowhere : state.cpu vcpu = none) : (vmxGetCpu state vcpu cur).localVcpu cur = some vcpu := by
  by_cases named : state.localVcpu cur = some vcpu
  · simp [vmxGetCpu, getCpu, named, Vmx.setStage]
  · simp [vmxGetCpu, getCpu, named, Vmx.setStage, compareCpu, nowhere, vmcsClear, loadVmcs, vmcsLoad]

omit [DecidableEq Cpu] [DecidableEq Vcpu] in
theorem Untraced.congr {state next : Vmx Cpu Vcpu} (named : next.localVcpu = state.localVcpu)
    (active : next.active = state.active) (current : next.current = state.current) :
    Untraced failure vcpu next ↔ Untraced failure vcpu state := by
  constructor
  · rintro ⟨unnamed, inactive⟩
    rw [named] at unnamed
    rw [active, current] at inactive
    exact ⟨unnamed, inactive⟩
  · rintro ⟨unnamed, inactive⟩
    rw [← named] at unnamed
    rw [← active, ← current] at inactive
    exact ⟨unnamed, inactive⟩

/-- An EPT that has its root only is freed as it was taken. -/
theorem vmxInitEpt_freed {page : Option PageFrame} {ept : Ept}
    (init : vmxInitEpt mem page = .ok ept) :
    (vmxFreeEpt ept).taken.Nodup ∧
      ∀ page, (vmxFreeEpt ept).freed.count page = (vmxFreeEpt ept).taken.count page := by
  have tree := (vmxInitEpt_balanced init).1
  have frees := freeTable_frees 3 ept.root ept
  refine ⟨?_, fun page => ?_⟩
  · rw [vmxFreeEpt, frees.taken]
    unfold vmxInitEpt at init
    split at init
    · exact absurd init (by simp)
    · rw [Except.ok.injEq] at init
      subst init
      exact List.nodup_singleton _
  · have balance := tree.tables page
    rw [vmxFreeEpt, frees.freed page, frees.taken, balance, Ept.occurs]

/-- `vpid` is the VPID that an allocation takes. -/
def FirstClear (vpids : VpidBitmap) (vpid : Nat) : Prop :=
  vpids vpid = false ∧ ∀ bit < vpid, vpids bit = true

/-- The VCPU after its memory was cleared, and after it was loaded and put. -/
def startedVcpu (calls : CreateCalls Cpu) (vcpu : Vcpu) (host : Host Cpu Vcpu) : Vmx Cpu Vcpu :=
  vmxCreateVcpu host.vmx vcpu calls.garbage

def loadedVcpu (calls : CreateCalls Cpu) (vcpu : Vcpu) (host : Host Cpu Vcpu) : Vmx Cpu Vcpu :=
  vmxPutCpu (vmxGetCpu (startedVcpu calls vcpu host) vcpu calls.cur) vcpu calls.cur

/-- What a failed creation leaves, by the point of its failure. -/
inductive CreateFails (calls : CreateCalls Cpu) (mem : PhysAddr → Nat → Epte) (vcpu : Vcpu)
    (host : Host Cpu Vcpu) : CreateFailure → Host Cpu Vcpu → Option Ept → Prop
  | vmcs : CreateFails calls mem vcpu host .vmcs
      ⟨kfree (startedVcpu calls vcpu host) vcpu, host.vpids⟩ none
  | vpid : CreateFails calls mem vcpu host .vpid
      ⟨kfree (startedVcpu calls vcpu host) vcpu, host.vpids⟩ none
  | eptRoot (vpid : Nat) : FirstClear host.vpids vpid →
      CreateFails calls mem vcpu host .eptRoot ⟨kfree (startedVcpu calls vcpu host) vcpu,
        vmxFreeVpid vpid (update host.vpids vpid true)⟩ none
  | notifier (vpid : Nat) (ept : Ept) : FirstClear host.vpids vpid →
      vmxInitEpt mem calls.root = .ok ept →
      CreateFails calls mem vcpu host .notifier ⟨kfree (loadedVcpu calls vcpu host) vcpu,
        vmxFreeVpid vpid (update host.vpids vpid true)⟩ (some (vmxFreeEpt ept))

theorem createVcpu_fails
    (failed : createVcpu nrVpids calls mem vcpu host = (.error failure, after, made)) :
    CreateFails calls mem vcpu host failure after made := by
  unfold createVcpu at failed
  by_cases vmcs : calls.vmcsOk = true
  · simp only [if_pos vmcs] at failed
    rcases vmxAllocateVpid_cases nrVpids host.vpids with
      ⟨vpid, result, _, clear, before⟩ | ⟨result, _⟩
    · rw [result] at failed
      dsimp only at failed
      rcases init : vmxInitEpt mem calls.root with ret | ept
      · rw [init] at failed
        simp only [Prod.mk.injEq, Except.error.injEq] at failed
        obtain ⟨rfl, rfl, rfl⟩ := failed
        exact .eptRoot vpid ⟨clear, before⟩
      · rw [init] at failed
        dsimp only at failed
        by_cases registered : calls.registered = true
        · simp [vmxCreateEpt, registered] at failed
        · simp only [vmxCreateEpt, if_neg registered, Prod.mk.injEq, Except.error.injEq] at failed
          obtain ⟨rfl, rfl, rfl⟩ := failed
          exact .notifier vpid ept ⟨clear, before⟩ init
    · rw [result] at failed
      simp only [Prod.mk.injEq, Except.error.injEq] at failed
      obtain ⟨rfl, rfl, rfl⟩ := failed
      exact .vpid
  · simp only [if_neg vmcs, Prod.mk.injEq, Except.error.injEq] at failed
    obtain ⟨rfl, rfl, rfl⟩ := failed
    exact .vmcs

/-- Freeing the VPID just taken restores the bitmap, if VPID 0 was not free. -/
theorem FirstClear.restored {vpids : VpidBitmap} {vpid : Nat} (first : FirstClear vpids vpid) :
    vmxFreeVpid vpid (update vpids vpid true) = vpids ↔ vpids 0 = true := by
  obtain ⟨clear, before⟩ := first
  rw [vmxFreeVpid]
  by_cases zero : vpid = 0
  · subst zero
    rw [if_neg (by simp), clear]
    simp only [Bool.false_eq_true, iff_false]
    intro same
    have bit := congrFun same 0
    rw [Function.update_self, clear] at bit
    exact absurd bit (by simp)
  · rw [if_pos zero, Function.update_idem, ← clear, Function.update_eq_self]
    simp only [true_iff]
    exact before 0 (Nat.pos_of_ne_zero zero)

/-- Whatever the point of failure, the EPT is given back once and the bitmap restored. -/
theorem CreateFails.restores (fails : CreateFails calls mem vcpu host failure after made)
    (reserved : host.vpids 0 = true) :
    (∀ ept, made = some ept →
      ept.taken.Nodup ∧ ∀ page, ept.freed.count page = ept.taken.count page) ∧
    after.vpids = host.vpids := by
  cases fails with
  | vmcs | vpid => exact ⟨by simp, rfl⟩
  | eptRoot vpid first => exact ⟨by simp, first.restored.mpr reserved⟩
  | notifier vpid ept first init =>
      refine ⟨fun freed isFreed => ?_, first.restored.mpr reserved⟩
      rw [Option.some.injEq] at isFreed
      rw [← isFreed]
      exact vmxInitEpt_freed init

omit [DecidableEq Cpu] in
theorem startedVcpu_untraced :
    Untraced failure vcpu (kfree (startedVcpu calls vcpu host) vcpu) ↔
      Untraced failure vcpu host.vmx := Untraced.congr rfl rfl rfl

theorem CreateFails.no_trace_iff (fails : CreateFails calls mem vcpu host failure after made) :
    NoTrace failure vcpu host after made ↔
      failure ≠ .notifier ∧ Untraced failure vcpu host.vmx ∧
        (failure = .eptRoot → host.vpids 0 = true) := by
  cases fails with
  | vmcs | vpid =>
      constructor
      · rintro ⟨untraced, _, _⟩
        exact ⟨by decide, startedVcpu_untraced.mp untraced, by simp⟩
      · rintro ⟨_, untraced, _⟩
        exact ⟨startedVcpu_untraced.mpr untraced, by simp, rfl⟩
  | eptRoot vpid first =>
      constructor
      · rintro ⟨untraced, _, vpids⟩
        exact ⟨by decide, startedVcpu_untraced.mp untraced, fun _ => first.restored.mp vpids⟩
      · rintro ⟨_, untraced, reserved⟩
        exact ⟨startedVcpu_untraced.mpr untraced, by simp, first.restored.mpr (reserved rfl)⟩
  | notifier vpid ept first init =>
      -- the processor of `vmx_get_cpu` names the VCPU when the notifier is refused
      have named : (loadedVcpu calls vcpu host).localVcpu calls.cur = some vcpu :=
        vmxGetCpu_named _ vcpu calls.cur (Function.update_self ..)
      constructor
      · intro none
        exact absurd named (none.untraced.unnamed calls.cur)
      · rintro ⟨notNotifier, _⟩
        exact absurd rfl notNotifier

/-- A failed creation leaves no trace exactly when it failed before the VCPU was loaded, no
processor named its address before, and VPID 0 was reserved where it matters. The EPT and the
VPID are given back at every point of failure. -/
theorem createVcpu_no_trace_iff
    (failed : createVcpu nrVpids calls mem vcpu host = (.error failure, after, made)) :
    (NoTrace failure vcpu host after made ↔
      failure ≠ .notifier ∧ Untraced failure vcpu host.vmx ∧
        (failure = .eptRoot → host.vpids 0 = true)) ∧
    (host.vpids 0 = true →
      (∀ ept, made = some ept →
        ept.taken.Nodup ∧ ∀ page, ept.freed.count page = ept.taken.count page) ∧
      after.vpids = host.vpids) :=
  ⟨(createVcpu_fails failed).no_trace_iff, (createVcpu_fails failed).restores⟩

/-- The host after `vmx_init`. -/
def bootHost : Host Nat Nat := ⟨bootVmx Nat Nat, (bootVpids Nat).bitmap⟩

theorem createVcpu_no_trace_iff_root :
    ∃ after, createVcpu 4 ⟨true, false, none, true, 0⟩ (fun _ _ => 0) 7 bootHost =
        (.error .eptRoot, after, none) ∧
      NoTrace .eptRoot 7 bootHost after none := by
  obtain ⟨after, failed⟩ : ∃ after, createVcpu 4 ⟨true, false, none, true, 0⟩ (fun _ _ => 0) 7
      bootHost = (.error .eptRoot, after, none) := ⟨_, rfl⟩
  refine ⟨after, failed, (createVcpu_no_trace_iff failed).1.mpr ⟨by decide, ?_, fun _ => rfl⟩⟩
  exact ⟨by simp [bootHost, bootVmx], by simp [bootHost, bootVmx]⟩

/-- The notifier is refused: processor 0 still names the freed VCPU and has its VMCS loaded. A
new VCPU at the address is taken for one that is loaded there, and never gets a processor. -/
theorem refused_vcpu_stays_loaded :
    ∃ after made, createVcpu 4 ⟨true, false, some ⟨0x1000#64, by decide⟩, false, 0⟩
        (fun _ _ => 0) 7 bootHost = (.error .notifier, after, made) ∧
      after.vmx.live 7 = false ∧ after.vmx.localVcpu 0 = some 7 ∧
      after.vmx.active 0 7 = true ∧ after.vmx.current 0 = some 7 ∧
      ¬ NoTrace .notifier 7 bootHost after made ∧
      (vmxGetCpu (vmxCreateVcpu after.vmx 7 false) 7 0).cpu 7 = none := by
  refine ⟨_, _, rfl, rfl, rfl, rfl, rfl, ?_, rfl⟩
  intro none
  exact absurd rfl (none.untraced.unnamed 0)

/-- The VPIDs' machine when a creation has its VPID and is at some later place. -/
def numberedVpids (state : Vpids Vcpu) (vcpu : Vcpu) (vpid : Nat) (life : VcpuLife) :
    Vpids Vcpu where
  bitmap := update state.bitmap vpid true
  life := update state.life vcpu life
  vpid := update state.vpid vcpu vpid

theorem numberedVpids_setLife (state : Vpids Vcpu) (vcpu : Vcpu) (vpid : Nat)
    (life next : VcpuLife) : (numberedVpids state vcpu vpid life).setLife vcpu next =
      numberedVpids state vcpu vpid next := by
  simp [numberedVpids, Vpids.setLife]

theorem numberedVpids_initEpt (state : Vpids Vcpu) (vcpu : Vcpu) (vpid : Nat) (rootOk : Bool) :
    vpidStep nrVpids (numberedVpids state vcpu vpid .numbered) (.initEpt vcpu rootOk) =
      some (numberedVpids state vcpu vpid (if rootOk then .loaded else .leaving)) := by
  have here : (numberedVpids state vcpu vpid .numbered).life vcpu = .numbered :=
    Function.update_self ..
  rw [vpidStep, if_pos here, numberedVpids_setLife]

theorem numberedVpids_createEpt (state : Vpids Vcpu) (vcpu : Vcpu) (vpid : Nat)
    (registered : Bool) :
    vpidStep nrVpids (numberedVpids state vcpu vpid .loaded) (.createEpt vcpu registered) =
      some (numberedVpids state vcpu vpid (if registered then .live else .leaving)) := by
  have here : (numberedVpids state vcpu vpid .loaded).life vcpu = .loaded :=
    Function.update_self ..
  rw [vpidStep, if_pos here, numberedVpids_setLife]

/-- The way out of a creation that has a VPID. -/
theorem unwound_run {state : Vpids Vcpu} {vpid : Nat}
    (run : Machine.Reaches (vpidStep nrVpids) (fun _ _ => True) state
      (numberedVpids state vcpu vpid .leaving)) :
    ∃ next, Machine.Reaches (vpidStep nrVpids) (fun _ _ => True) state next ∧
      next.bitmap = vmxFreeVpid vpid (update state.bitmap vpid true) ∧
      next.life = update state.life vcpu .absent := by
  have step : vpidStep nrVpids (numberedVpids state vcpu vpid .leaving) (.freeVpid vcpu) =
      some (freeVpidStep (numberedVpids state vcpu vpid .leaving) vcpu) := by
    simp [vpidStep, numberedVpids]
  refine ⟨_, .tail run trivial step, ?_, ?_⟩
  · simp [freeVpidStep, numberedVpids]
  · simp [freeVpidStep, numberedVpids]

/-- A creation is a run of the VPIDs' machine. -/
theorem createVcpu_run {state : Vpids Vcpu} (absent : state.life vcpu = .absent)
    (same : state.bitmap = host.vpids) :
    ∃ next, Machine.Reaches (vpidStep nrVpids) (fun _ _ => True) state next ∧
      next.bitmap = (createVcpu nrVpids calls mem vcpu host).2.1.vpids ∧
      ((createVcpu nrVpids calls mem vcpu host).1 = .ok vcpu ∧
          next.life = update state.life vcpu .live ∨
        (∃ failure, (createVcpu nrVpids calls mem vcpu host).1 = .error failure) ∧
          next.life = update state.life vcpu .absent) := by
  have started : Machine.Reaches (vpidStep nrVpids) (fun _ _ => True) state
      (state.setLife vcpu (if calls.vmcsOk then .allocated else .absent)) :=
    .tail .refl trivial (show vpidStep nrVpids state (.allocVcpu vcpu calls.vmcsOk) = some _ by
      simp only [vpidStep, if_pos absent])
  unfold createVcpu
  by_cases vmcs : calls.vmcsOk = true
  · rw [if_pos vmcs] at started
    simp only [if_pos vmcs]
    have asked : Machine.Reaches (vpidStep nrVpids) (fun _ _ => True) state
        (allocateVpidStep nrVpids (state.setLife vcpu .allocated) vcpu) :=
      .tail started trivial (show vpidStep nrVpids _ (.allocateVpid vcpu) = some _ by
        simp [vpidStep])
    simp only [allocateVpidStep, Vpids.setLife_bitmap, Vpids.setLife_life, Vpids.setLife_vpid,
      Function.update_idem, same] at asked
    rcases vmxAllocateVpid_cases nrVpids host.vpids with ⟨vpid, result, _⟩ | ⟨result, _⟩
    · rw [result] at asked ⊢
      have numbered : Machine.Reaches (vpidStep nrVpids) (fun _ _ => True) state
          (numberedVpids state vcpu vpid .numbered) := by
        simpa [numberedVpids, same] using asked
      rcases vmxInitEpt mem calls.root with ret | ept
      · have failed := Machine.Reaches.tail numbered trivial
          (numberedVpids_initEpt state vcpu vpid false)
        obtain ⟨next, run, bitmap, life⟩ := unwound_run failed
        rw [same] at bitmap
        exact ⟨next, run, bitmap, Or.inr ⟨⟨_, rfl⟩, life⟩⟩
      · have rooted := Machine.Reaches.tail numbered trivial
          (numberedVpids_initEpt state vcpu vpid true)
        have run := Machine.Reaches.tail rooted trivial
          (numberedVpids_createEpt state vcpu vpid calls.registered)
        by_cases registered : calls.registered = true
        · rw [if_pos registered] at run
          simp only [vmxCreateEpt, if_pos registered]
          refine ⟨_, run, ?_, Or.inl ⟨trivial, rfl⟩⟩
          rw [numberedVpids, same]
        · rw [if_neg registered] at run
          simp only [vmxCreateEpt, if_neg registered]
          obtain ⟨next, left, bitmap, life⟩ := unwound_run run
          rw [same] at bitmap
          exact ⟨next, left, bitmap, Or.inr ⟨⟨_, rfl⟩, life⟩⟩
    · rw [result] at asked ⊢
      exact ⟨_, asked, rfl, Or.inr ⟨⟨_, rfl⟩, rfl⟩⟩
  · rw [if_neg vmcs] at started
    simp only [if_neg vmcs]
    exact ⟨_, started, same, Or.inr ⟨⟨_, rfl⟩, rfl⟩⟩

end RdmaPaging
