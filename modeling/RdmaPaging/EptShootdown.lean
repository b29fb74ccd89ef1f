import RdmaPaging.EptTlb

/-!
VCPUs that move between the processors while callbacks of the notifier clear entries of their EPTs
and flush the processor that `vcpu->cpu` names. What the guest of a VCPU can reach through a cached
translation is in its EPT, or its flush is still under way.
-/

namespace RdmaPaging

/-- A flush under way: what to flush, and the processor that `vcpu->cpu` named when it was read. -/
structure SyncCall (Cpu : Type) where
  kind : SyncKind
  target : Option Cpu

/-- The processors with their translations, the VCPUs, and for each VCPU its EPT from
`vmx_init_ept` to `vmx_destroy_ept`, its EPT pointer, whether the flush of `vmx_get_cpu` is done, the
fault that its thread handles, and the flushes of the callbacks. -/
structure TlbHost (Cpu Vcpu : Type) where
  vmx : Vmx Cpu Vcpu
  ept : Vcpu → Option Ept
  eptp : Vcpu → BitVec 64
  tlb : Cpu → Tlb
  synced : Vcpu → Bool
  fault : Vcpu → Option PhysAddr
  calls : Vcpu → List (SyncCall Cpu)

inductive TlbAction (Cpu Vcpu : Type)
  | createVcpu (vcpu : Vcpu) (garbage : Bool) (mem : PhysAddr → Nat → Epte) (page : PageFrame)
  | move (action : VmxAction Cpu Vcpu)
  | syncContext (vcpu : Vcpu)
  | loadVmcs (vcpu : Vcpu)
  | translate (vcpu : Vcpu) (gpa : PhysAddr)
  | violate (vcpu : Vcpu) (gpa : PhysAddr)
  | endFault (vcpu : Vcpu) (faultFlags : BitVec 32) (gup : Option GupPage) (source : PfnSource)
      (supply : Supply)
  | callback (vcpu : Vcpu) (callback : EptCallback)
  | readCpu (vcpu : Vcpu) (index : Nat)
  | syncHelper (vcpu : Vcpu) (index : Nat)
  | destroyEpt (vcpu : Vcpu)
  | destroyVcpu (vcpu : Vcpu)

/-- The steps of a VCPU that neither create, load nor destroy it. -/
def VmxAction.moves {Cpu Vcpu : Type} : VmxAction Cpu Vcpu → Bool
  | .createVcpu _ _ | .loadVmcs _ | .destroyVcpu _ => false
  | _ => true

variable {Cpu Vcpu : Type} [DecidableEq Cpu] [DecidableEq Vcpu]

open Function (update)

/-- `smp_call_function_single` does nothing for a processor that there is not. -/
def readCpu (state : TlbHost Cpu Vcpu) (vcpu : Vcpu) (index : Nat) (call : SyncCall Cpu) :
    List (SyncCall Cpu) :=
  match state.vmx.cpu vcpu with
  | none => (state.calls vcpu).eraseIdx index
  | some cpu => (state.calls vcpu).set index { call with target := some cpu }

/-- `__vmx_sync_helper` and `__vmx_sync_individual_addr_helper`. -/
def SyncKind.sync (caps : BitVec 32) (eptp : BitVec 64) (tlb : Tlb) : SyncKind → Tlb
  | .individualAddr gpa => eptSyncIndividualAddr caps eptp (gpa &&& ~~~ 0xfff#64) tlb
  | .vcpu => eptSyncContext caps eptp tlb

/-- One step. The processor uses the EPT of the VMCS that is current, whichever VCPU the thread
believes to run. A violation drops the translations of its address. A thread handles its fault
before it enters the guest again, and `mmu_notifier_unregister` waits for callbacks under way. -/
@[grind =] def tlbStep (config : EptConfig) (caps : BitVec 32) (state : TlbHost Cpu Vcpu) :
    TlbAction Cpu Vcpu → Option (TlbHost Cpu Vcpu)
  | .createVcpu vcpu garbage mem page =>
      match vmxInitEpt mem (some page) with
      | .error _ => none
      | .ok ept => (vmxStep state.vmx (.createVcpu vcpu garbage)).map fun vmx => { state with
          vmx := vmx
          ept := update state.ept vcpu (some ept)
          eptp := update state.eptp vcpu (constructEptp caps ept.root)
          synced := update state.synced vcpu false
          fault := update state.fault vcpu none
          calls := update state.calls vcpu [] }
  | .move action =>
      if action.moves then (vmxStep state.vmx action).map fun vmx => { state with vmx := vmx } else none
  | .syncContext vcpu =>
      match state.vmx.stage vcpu with
      | .cleared cur => some { state with
          tlb := update state.tlb cur (eptSyncContext caps (state.eptp vcpu) (state.tlb cur))
          synced := update state.synced vcpu true }
      | _ => none
  | .loadVmcs vcpu =>
      if state.synced vcpu then (vmxStep state.vmx (.loadVmcs vcpu)).map fun vmx => { state with
        vmx := vmx
        synced := update state.synced vcpu false }
      else none
  | .translate vcpu gpa =>
      match state.vmx.stage vcpu, state.fault vcpu with
      | .holding cur, none => (state.vmx.current cur).bind fun loaded =>
          (state.ept loaded).bind fun ept => (ept.pages (gpa.toNat / 4096)).map fun leaf => { state with
            tlb := update state.tlb cur (update (state.tlb cur) (state.eptp loaded)
              (update (state.tlb cur (state.eptp loaded)) (gpa.toNat / 4096) (some leaf))) }
      | _, _ => none
  | .violate vcpu gpa =>
      match state.vmx.stage vcpu, state.fault vcpu with
      | .holding cur, none => (state.vmx.current cur).bind fun loaded =>
          if gpa.toNat < 2 ^ 48 then some { state with
            tlb := update state.tlb cur (invept .individualAddr (state.eptp loaded) gpa (state.tlb cur))
            fault := update state.fault vcpu (some gpa) }
          else none
      | _, _ => none
  | .endFault vcpu faultFlags gup source supply =>
      (state.fault vcpu).bind fun gpa => (state.ept vcpu).map fun ept => { state with
        ept := update state.ept vcpu
          (some (vmxDoEptFault config gpa faultFlags gup source supply ept).2)
        fault := update state.fault vcpu none }
  | .callback vcpu callback =>
      (state.ept vcpu).bind fun ept => (eptCallback config ept callback).map fun result => { state with
        ept := update state.ept vcpu (some result.2)
        calls := update state.calls vcpu
          ((result.1.map fun kind => (⟨kind, none⟩ : SyncCall Cpu)).toList ++ state.calls vcpu) }
  | .readCpu vcpu index =>
      match (state.calls vcpu)[index]? with
      | some ⟨kind, none⟩ => some { state with
          calls := update state.calls vcpu (readCpu state vcpu index ⟨kind, none⟩) }
      | _ => none
  | .syncHelper vcpu index =>
      match (state.calls vcpu)[index]? with
      | some ⟨kind, some cpu⟩ => some { state with
          tlb := update state.tlb cpu (kind.sync caps (state.eptp vcpu) (state.tlb cpu))
          calls := update state.calls vcpu ((state.calls vcpu).eraseIdx index) }
      | _ => none
  | .destroyEpt vcpu =>
      if state.calls vcpu = [] then some { state with ept := update state.ept vcpu none } else none
  | .destroyVcpu vcpu =>
      match state.vmx.stage vcpu, state.ept vcpu with
      | .holding cur, none => (vmxStep state.vmx (.destroyVcpu vcpu)).map fun vmx => { state with
          vmx := vmx
          tlb := update state.tlb cur (eptSyncContext caps (state.eptp vcpu) (state.tlb cur)) }
      | _, _ => none

/-! The flushes. -/

variable {config : EptConfig} {caps : BitVec 32} {ept after : Ept} {gpa : PhysAddr}

/-- The processor flushes the translations of one EPT, or all of them. -/
def FlushesContext (caps : BitVec 32) : Prop :=
  cpuHasVmxInveptContext caps = true ∨ cpuHasVmxInveptGlobal caps = true

theorem eptSyncContext_shrinks {eptp tag : BitVec 64} {tlb : Tlb} {page : Nat} {leaf : Nat × Epte}
    (kept : eptSyncContext caps eptp tlb tag page = some leaf) : tlb tag page = some leaf := by
  unfold eptSyncContext eptSyncGlobal at kept
  split at kept
  · rw [invept] at kept
    split at kept
    · exact absurd kept (by simp)
    · exact kept
  · split at kept
    · exact absurd kept (by simp [invept])
    · exact kept

theorem eptSyncContext_empties (flushes : FlushesContext caps) (eptp : BitVec 64) (tlb : Tlb) (page : Nat) :
    eptSyncContext caps eptp tlb eptp page = none := by
  unfold eptSyncContext eptSyncGlobal
  split
  · rw [invept, if_pos rfl]
  · rename_i noContext
    rw [if_pos (flushes.resolve_left noContext), invept]

theorem invept_address {eptp tag : BitVec 64} {tlb : Tlb} {page : Nat} {leaf : Nat × Epte}
    (kept : invept .individualAddr eptp gpa tlb tag page = some leaf) :
    tlb tag page = some leaf ∧ (tag = eptp → inBlock leaf.1 page gpa = false) := by
  rw [invept] at kept
  split at kept
  · obtain ⟨before, apart⟩ := MapCache.drop_eq_some.mp kept
    exact ⟨before, fun _ => apart⟩
  · rename_i other
    exact ⟨kept, fun same => absurd same other⟩

theorem pageMask_toNat (gpa : PhysAddr) : (gpa &&& ~~~ 0xfff#64).toNat / 4096 = gpa.toNat / 4096 := by
  have mask : (~~~ 0xfff#64 : BitVec 64).toNat = (2 ^ 52 - 1) * 2 ^ 12 := by decide
  have bound := gpa.isLt
  rw [BitVec.toNat_and, mask, fieldMask_and]
  omega

/-- A flush of a callback leaves nothing that it is to flush. -/
theorem SyncKind.sync_spec (flushes : FlushesContext caps) {kind : SyncKind} {eptp tag : BitVec 64}
    {tlb : Tlb} {page : Nat} {leaf : Nat × Epte} (kept : kind.sync caps eptp tlb tag page = some leaf) :
    tlb tag page = some leaf ∧ (tag = eptp → ¬ kind.covers page) := by
  have context : eptSyncContext caps eptp tlb tag page = some leaf →
      tlb tag page = some leaf ∧ (tag = eptp → ¬ kind.covers page) := by
    intro kept
    refine ⟨eptSyncContext_shrinks kept, fun same => ?_⟩
    rw [same, eptSyncContext_empties flushes] at kept
    exact absurd kept (by simp)
  cases kind with
  | vcpu => exact context kept
  | individualAddr gpa =>
      rw [SyncKind.sync, eptSyncIndividualAddr] at kept
      split at kept
      · obtain ⟨before, apart⟩ := invept_address kept
        refine ⟨before, fun same covered => ?_⟩
        have inside := inBlock_self leaf.1 (gpa &&& ~~~ 0xfff#64)
        rw [pageMask_toNat, ← show page = gpa.toNat / 4096 from covered, apart same] at inside
        exact absurd inside (by simp)
      · exact context kept

/-! One VCPU. -/

/-- A flush under way reaches the translation of a page on a processor. -/
def Owed (calls : List (SyncCall Cpu)) (cur : Cpu) (page : Nat) : Prop :=
  ∃ call ∈ calls, (call.target = none ∨ call.target = some cur) ∧ call.kind.covers page

/-- What holds of the translations of a VCPU on the processor that it was last loaded on, and on
the one that it moves to. `dropped` is about the fault that its thread handles. -/
structure VcpuTlb (ept : Ept) (home : Option Cpu) (stage : GetStage Cpu)
    (cache : Cpu → Nat → Option (Nat × Epte)) (synced : Bool) (fault : Option PhysAddr)
    (calls : List (SyncCall Cpu)) : Prop where
  coherent : ∀ cur, home = some cur → MapCache.Fits ept.pages (cache cur) (Owed calls cur)
  dropped : ∀ cur gpa, home = some cur → fault = some gpa → ∀ page leaf, cache cur page = some leaf →
    inBlock leaf.1 page gpa = false
  fresh : ∀ cur, synced = true → stage = .cleared cur → ∀ page, cache cur page = none

variable {home : Option Cpu} {stage later : GetStage Cpu} {cache small : Cpu → Nat → Option (Nat × Epte)}
variable {synced : Bool} {fault : Option PhysAddr} {calls : List (SyncCall Cpu)} {cur : Cpu}

omit [DecidableEq Cpu] in
theorem VcpuTlb.shrink (view : VcpuTlb ept home stage cache synced fault calls)
    (fewer : ∀ cur page leaf, small cur page = some leaf → cache cur page = some leaf) :
    VcpuTlb ept home stage small synced fault calls where
  coherent := fun cur isHome => (view.coherent cur isHome).shrink (fewer cur) fun _ _ _ debt => debt
  dropped := fun cur gpa isHome faults page leaf cached =>
    view.dropped cur gpa isHome faults page leaf (fewer cur page leaf cached)
  fresh := by
    intro cur isSynced isCleared page
    rcases cached : small cur page with _ | leaf
    · rfl
    · rw [← view.fresh cur isSynced isCleared page, fewer cur page leaf cached]

omit [DecidableEq Cpu] in
/-- The flush of `vmx_get_cpu`, on the processor that the VCPU moves to. -/
theorem VcpuTlb.syncContext (view : VcpuTlb ept home (.cleared cur) cache synced fault calls)
    (fewer : ∀ cur page leaf, small cur page = some leaf → cache cur page = some leaf)
    (nothing : ∀ page, small cur page = none) : VcpuTlb ept home (.cleared cur) small true fault calls := by
  obtain ⟨coherent, dropped, _⟩ := view.shrink fewer
  refine ⟨coherent, dropped, fun other _ isCleared => ?_⟩
  obtain rfl := GetStage.cleared.inj isCleared
  exact nothing

omit [DecidableEq Cpu] in
/-- After the flush the VCPU may call the processor its own. -/
theorem VcpuTlb.loadVmcs (view : VcpuTlb ept home (.cleared cur) cache true fault calls) :
    VcpuTlb ept (some cur) stage cache false fault calls := by
  have nothing := view.fresh cur rfl rfl
  refine ⟨fun other isHome => ?_, fun other gpa isHome _ page leaf cached => ?_,
    fun _ isSynced => absurd isSynced (by simp)⟩
  · obtain rfl := Option.some.inj isHome
    exact MapCache.Fits.empty nothing
  · obtain rfl := Option.some.inj isHome
    rw [nothing page] at cached
    exact absurd cached (by simp)

/-- Only the thread of the VCPU caches translations, and none while it handles a fault. -/
theorem VcpuTlb.translate (view : VcpuTlb ept (some cur) (.holding cur) cache synced none calls)
    (page : Nat) : VcpuTlb ept (some cur) (.holding cur)
      (update cache cur (update (cache cur) page (ept.pages page))) synced none calls := by
  refine ⟨fun other isHome => ?_, fun _ _ _ faults => absurd faults (by simp),
    fun _ _ isCleared => absurd isCleared (by simp)⟩
  obtain rfl := Option.some.inj isHome
  rw [Function.update_self]
  exact (view.coherent _ rfl).fill page

omit [DecidableEq Cpu] in
theorem VcpuTlb.violate (view : VcpuTlb ept (some cur) stage cache synced none calls)
    (fewer : ∀ cur page leaf, small cur page = some leaf → cache cur page = some leaf)
    (apart : ∀ page leaf, small cur page = some leaf → inBlock leaf.1 page gpa = false) :
    VcpuTlb ept (some cur) stage small synced (some gpa) calls := by
  obtain ⟨coherent, _, fresh⟩ := view.shrink fewer
  refine ⟨coherent, fun other faulting isHome faults page leaf cached => ?_, fresh⟩
  obtain rfl := Option.some.inj isHome
  obtain rfl := Option.some.inj faults
  exact apart page leaf cached

/-- The entry that a fault makes takes the place of the mapping of its own address only. -/
def ReplacesOwn (ept : Ept) (level : Nat) (gpa : PhysAddr) : Prop :=
  ∀ page leaf, ept.pages page = some leaf → inBlock level page gpa = true →
    inBlock leaf.1 page gpa = true

/-- A page of 4 KB has no neighbours in its block. -/
theorem replacesOwn_zero (ept : Ept) (gpa : PhysAddr) : ReplacesOwn ept 0 gpa := by
  intro page leaf _ inside
  rw [inBlock_zero.mp inside]
  exact inBlock_self leaf.1 gpa

omit [DecidableEq Cpu] in
theorem VcpuTlb.endFault {level : Nat} (view : VcpuTlb ept home stage cache synced (some gpa) calls)
    (changes : ChangesBlock level gpa ept after) (own : ReplacesOwn ept level gpa) :
    VcpuTlb after home stage cache synced none calls := by
  refine ⟨fun cur isHome => ?_, fun _ _ _ faults => absurd faults (by simp), view.fresh⟩
  refine (view.coherent cur isHome).change (fun _ debt => debt) fun page leaf maps cached changed => ?_
  have apart := view.dropped cur gpa isHome rfl page leaf cached
  rw [own page leaf maps (changes page changed)] at apart
  exact absurd apart (by simp)

omit [DecidableEq Cpu] in
theorem VcpuTlb.callback (view : VcpuTlb ept home stage cache synced fault calls) {sync : Option SyncKind}
    (syncs : CallbackSyncs ept sync after) :
    VcpuTlb after home stage cache synced fault
      ((sync.map fun kind => (⟨kind, none⟩ : SyncCall Cpu)).toList ++ calls) := by
  refine ⟨fun cur isHome => ?_, view.dropped, view.fresh⟩
  refine (view.coherent cur isHome).change ?_ fun page leaf _ _ changed => ?_
  · rintro page ⟨call, member, debt⟩
    exact ⟨call, List.mem_append_right _ member, debt⟩
  · obtain ⟨kind, rfl, covers⟩ := syncs.syncs page changed
    exact ⟨⟨kind, none⟩, List.mem_append_left _ (by simp), Or.inl rfl, covers⟩

omit [DecidableEq Cpu] in
/-- The processor that a flush is sent to is the one that its VCPU runs on, or the flush is not
needed there. -/
theorem VcpuTlb.readCpu (view : VcpuTlb ept (some cur) stage cache synced fault calls) {index : Nat}
    {kind : SyncKind} (found : calls[index]? = some ⟨kind, none⟩) :
    VcpuTlb ept (some cur) stage cache synced fault (calls.set index ⟨kind, some cur⟩) := by
  refine ⟨fun other isHome => ?_, view.dropped, view.fresh⟩
  obtain rfl := Option.some.inj isHome
  refine (view.coherent _ rfl).weaken ?_
  rintro page ⟨call, member, reaches, covers⟩
  obtain ⟨place, isCall⟩ := List.getElem?_of_mem member
  by_cases here : place = index
  · rw [here, found, Option.some.injEq] at isCall
    subst isCall
    refine ⟨⟨kind, some cur⟩, List.mem_of_getElem? (i := index) ?_, Or.inr rfl, covers⟩
    rw [List.getElem?_set_self (List.getElem?_eq_some_iff.mp found).1]
  · refine ⟨call, List.mem_of_getElem? (i := place) ?_, reaches, covers⟩
    rw [List.getElem?_set_ne (Ne.symm here), isCall]

omit [DecidableEq Cpu] in
/-- A flush that has run on the processor that it was sent to is no longer needed. -/
theorem VcpuTlb.syncHelper (view : VcpuTlb ept home stage cache synced fault calls) {index : Nat}
    {kind : SyncKind} {target : Cpu} (found : calls[index]? = some ⟨kind, some target⟩)
    (fewer : ∀ cur page leaf, small cur page = some leaf → cache cur page = some leaf)
    (gone : ∀ page leaf, small target page = some leaf → ¬ kind.covers page) :
    VcpuTlb ept home stage small synced fault (calls.eraseIdx index) := by
  obtain ⟨_, dropped, fresh⟩ := view.shrink fewer
  refine ⟨fun cur isHome => ?_, dropped, fresh⟩
  refine (view.coherent cur isHome).shrink (fewer cur) ?_
  rintro page leaf cached ⟨call, member, reaches, covers⟩
  obtain ⟨place, isCall⟩ := List.getElem?_of_mem member
  by_cases here : place = index
  · rw [here, found, Option.some.injEq] at isCall
    subst isCall
    obtain rfl : target = cur := by simpa using reaches
    exact absurd covers (gone page leaf cached)
  · exact ⟨call, List.mem_eraseIdx_iff_getElem?.mpr ⟨place, here, isCall⟩, reaches, covers⟩

omit [DecidableEq Cpu] in
theorem VcpuTlb.move (view : VcpuTlb ept home stage cache synced fault calls)
    (same : synced = true → later = stage) : VcpuTlb ept home later cache synced fault calls :=
  ⟨view.coherent, view.dropped, fun cur isSynced isCleared =>
    view.fresh cur isSynced ((same isSynced).symm.trans isCleared)⟩

/-! All VCPUs. -/

def TlbHost.View (state : TlbHost Cpu Vcpu) (vcpu : Vcpu) (ept : Ept) : Prop :=
  VcpuTlb ept (state.vmx.cpu vcpu) (state.vmx.stage vcpu) (fun cur => state.tlb cur (state.eptp vcpu))
    (state.synced vcpu) (state.fault vcpu) (state.calls vcpu)

/-- What holds in every state. No two EPTs have one pointer. -/
structure TlbInv (state : TlbHost Cpu Vcpu) : Prop where
  vmx : VmxInv state.vmx
  tree : ∀ vcpu ept, state.ept vcpu = some ept → EptTree ept
  apart : ∀ vcpu other, state.ept vcpu ≠ none → state.ept other ≠ none →
    state.eptp vcpu = state.eptp other → vcpu = other
  inside : ∀ vcpu gpa, state.fault vcpu = some gpa → gpa.toNat < 2 ^ 48
  cleared : ∀ vcpu, state.synced vcpu = true → (state.vmx.stage vcpu).isCleared = true
  views : ∀ vcpu ept, state.ept vcpu = some ept → state.View vcpu ept

/-- The kernel gives out pages that are not in use, and enters a huge page only where no other
entry maps a part of it. -/
def tlbRule (state : TlbHost Cpu Vcpu) : TlbAction Cpu Vcpu → Prop
  | .createVcpu _ _ _ page => ∀ vcpu, state.ept vcpu ≠ none → epteAddr (state.eptp vcpu) ≠ page.val
  | .endFault vcpu _ gup _ supply => ∀ ept gpa, state.ept vcpu = some ept → state.fault vcpu = some gpa →
      Fresh ept supply ∧ ReplacesOwn ept (faultLevel gup) gpa
  | _ => True

/-- Before the first VCPU, whatever the processors have cached. -/
def bootTlb (Cpu Vcpu : Type) (tlb : Cpu → Tlb) : TlbHost Cpu Vcpu where
  vmx := bootVmx Cpu Vcpu
  ept := fun _ => none
  eptp := fun _ => 0
  tlb := tlb
  synced := fun _ => false
  fault := fun _ => none
  calls := fun _ => []

variable {state next : TlbHost Cpu Vcpu} {vcpu : Vcpu} {vmx : Vmx Cpu Vcpu}

theorem epteAddr_constructEptp (caps : BitVec 32) (page : PageFrame) :
    epteAddr (constructEptp caps page.val) = page.val := by
  have flags : ∀ adBits : Bool,
      epteAddr (0x1e#64 ||| if adBits = true then 0x40#64 else 0#64) = 0#64 := by decide
  have entered := epteAddr_or page.val _ (flags (cpuHasVmxEptAdBits caps))
  rw [constructEptp, BitVec.or_comm]
  exact entered.trans page.2

/-- The steps that move a VCPU leave `vcpu->cpu` alone, and what was cleared. -/
theorem vmxStep_moves {action : VmxAction Cpu Vcpu} {before : Vmx Cpu Vcpu} (moves : action.moves = true)
    (stepped : vmxStep before action = some vmx) : vmx.cpu = before.cpu ∧
      ∀ vcpu, (before.stage vcpu).isCleared = true → vmx.stage vcpu = before.stage vcpu := by
  have others : ∀ {vcpu other : Vcpu} {later : GetStage Cpu}, (before.stage vcpu).isCleared = false →
      (before.stage other).isCleared = true → update before.stage vcpu later other = before.stage other := by
    intro vcpu other later notCleared isCleared
    refine Function.update_of_ne ?_ _ _
    rintro rfl
    simp [isCleared] at notCleared
  cases action with
  | createVcpu vcpu garbage | loadVmcs vcpu | destroyVcpu vcpu => simp [VmxAction.moves] at moves
  | getCpu vcpu cur =>
      simp only [vmxStep, Option.ite_none_right_eq_some, Option.some.injEq] at stepped
      obtain ⟨⟨_, outside, _⟩, rfl⟩ := stepped
      unfold getCpu
      split <;> exact ⟨rfl, fun other isCleared => others (by rw [outside]; rfl) isCleared⟩
  | compareCpu vcpu =>
      simp only [vmxStep] at stepped
      split at stepped
      · rename_i cur entered
        obtain rfl := Option.some.inj stepped
        unfold compareCpu
        split
        · exact ⟨rfl, fun other isCleared => others (by rw [entered]; rfl) isCleared⟩
        · split <;> exact ⟨rfl, fun other isCleared => others (by rw [entered]; rfl) isCleared⟩
      · simp at stepped
  | getCpuHelper vcpu =>
      simp only [vmxStep] at stepped
      split at stepped
      · rename_i cur target calling
        obtain rfl := Option.some.inj stepped
        exact ⟨rfl, fun other isCleared => others (by rw [calling]; rfl) isCleared⟩
      · simp at stepped
  | runVcpu vcpu entryOk =>
      simp only [vmxStep] at stepped
      split at stepped
      · simp only [Option.ite_none_left_eq_some, Option.some.injEq] at stepped
        obtain ⟨_, rfl⟩ := stepped
        exact ⟨rfl, fun _ _ => rfl⟩
      · simp at stepped
  | putCpu vcpu =>
      simp only [vmxStep] at stepped
      split at stepped
      · rename_i cur holds
        obtain rfl := Option.some.inj stepped
        exact ⟨rfl, fun other isCleared => others (by rw [holds]; rfl) isCleared⟩
      · simp at stepped

theorem TlbInv.move {action : VmxAction Cpu Vcpu} (inv : TlbInv state) (moves : action.moves = true)
    (stepped : vmxStep state.vmx action = some vmx) : TlbInv { state with vmx := vmx } := by
  obtain ⟨cpu, stage⟩ := vmxStep_moves moves stepped
  refine ⟨inv.vmx.step stepped, inv.tree, inv.apart, inv.inside, fun vcpu isSynced => ?_,
    fun vcpu ept has => ?_⟩
  · rw [stage vcpu (inv.cleared vcpu isSynced)]
    exact inv.cleared vcpu isSynced
  · have view := inv.views vcpu ept has
    rw [TlbHost.View, ← cpu] at view
    exact view.move fun isSynced => stage vcpu (inv.cleared vcpu isSynced)

theorem TlbInv.createVcpu {garbage : Bool} {mem : PhysAddr → Nat → Epte} {page : PageFrame}
    (inv : TlbInv state) (unused : ∀ vcpu, state.ept vcpu ≠ none → epteAddr (state.eptp vcpu) ≠ page.val)
    (stepped : tlbStep config caps state (.createVcpu vcpu garbage mem page) = some next) : TlbInv next := by
  simp only [tlbStep] at stepped
  split at stepped
  · simp at stepped
  · rename_i ept init
    rw [Option.map_eq_some_iff] at stepped
    obtain ⟨vmx, created, rfl⟩ := stepped
    have after := inv.vmx.step created
    have isRoot : ept.root = page.val := by
      obtain rfl := Except.ok.inj init
      rfl
    have otherPointer : ∀ other, state.ept other ≠ none →
        state.eptp other ≠ constructEptp caps ept.root := by
      intro other has same
      refine unused other has ?_
      rw [same, isRoot, epteAddr_constructEptp]
    simp only [vmxStep, Option.ite_none_left_eq_some, Option.some.injEq] at created
    obtain ⟨_, rfl⟩ := created
    refine ⟨after, fun other found has => ?_, fun first second isFirst isSecond same => ?_,
      fun other gpa faults => ?_, fun other isSynced => ?_, fun other found has => ?_⟩
    · by_cases here : other = vcpu
      · rw [here] at has
        dsimp only at has
        rw [Function.update_self, Option.some.injEq] at has
        exact has ▸ (vmxInitEpt_balanced init).1
      · dsimp only at has
        rw [Function.update_of_ne here] at has
        exact inv.tree other found has
    · by_cases here : first = vcpu <;> by_cases there : second = vcpu
      · rw [here, there]
      · dsimp only at isSecond same
        rw [here, Function.update_self, Function.update_of_ne there] at same
        rw [Function.update_of_ne there] at isSecond
        exact absurd same.symm (otherPointer second isSecond)
      · dsimp only at isFirst same
        rw [there, Function.update_self, Function.update_of_ne here] at same
        rw [Function.update_of_ne here] at isFirst
        exact absurd same (otherPointer first isFirst)
      · dsimp only at isFirst isSecond same
        rw [Function.update_of_ne here] at isFirst
        rw [Function.update_of_ne there] at isSecond
        rw [Function.update_of_ne here, Function.update_of_ne there] at same
        exact inv.apart first second isFirst isSecond same
    · dsimp only at faults
      by_cases here : other = vcpu
      · rw [here, Function.update_self] at faults
        exact absurd faults (by simp)
      · rw [Function.update_of_ne here] at faults
        exact inv.inside other gpa faults
    · dsimp only at isSynced
      by_cases here : other = vcpu
      · rw [here, Function.update_self] at isSynced
        exact absurd isSynced (by simp)
      · rw [Function.update_of_ne here] at isSynced
        have isCleared := inv.cleared other isSynced
        simpa [vmxCreateVcpu, Vmx.setStage, Function.update_of_ne here] using isCleared
    · by_cases here : other = vcpu
      · subst here
        simp only [TlbHost.View, vmxCreateVcpu, Vmx.setStage, Function.update_self]
        exact ⟨fun _ isHome => absurd isHome (by simp), fun _ _ isHome => absurd isHome (by simp),
          fun _ isSynced => absurd isSynced (by simp)⟩
      · dsimp only at has
        rw [Function.update_of_ne here] at has
        have view := inv.views other found has
        simpa only [TlbHost.View, vmxCreateVcpu, Vmx.setStage, Function.update_of_ne here] using view

/-- A flush on one processor takes nothing in elsewhere. -/
theorem update_shrinks {tlb : Cpu → Tlb} {flushed : Tlb} {target : Cpu}
    (fewer : ∀ tag page leaf, flushed tag page = some leaf → tlb target tag page = some leaf)
    (tag : BitVec 64) : ∀ cur page leaf, update tlb target flushed cur tag page = some leaf →
      tlb cur tag page = some leaf := by
  intro cur page leaf cached
  by_cases here : cur = target
  · subst here
    rw [Function.update_self] at cached
    exact fewer tag page leaf cached
  · rwa [Function.update_of_ne here] at cached

theorem TlbInv.syncContext (inv : TlbInv state) (flushes : FlushesContext caps)
    (stepped : tlbStep config caps state (.syncContext vcpu) = some next) : TlbInv next := by
  simp only [tlbStep] at stepped
  split at stepped
  · rename_i cur isStage
    obtain rfl := Option.some.inj stepped
    have fewer : ∀ tag processor page leaf,
        update state.tlb cur (eptSyncContext caps (state.eptp vcpu) (state.tlb cur)) processor tag page =
          some leaf → state.tlb processor tag page = some leaf :=
      update_shrinks fun _ _ _ kept => eptSyncContext_shrinks kept
    refine ⟨inv.vmx, inv.tree, inv.apart, inv.inside, fun other isSynced => ?_, fun other ept has => ?_⟩
    · by_cases here : other = vcpu
      · rw [here, isStage]
        rfl
      · dsimp only at isSynced
        rw [Function.update_of_ne here] at isSynced
        exact inv.cleared other isSynced
    · have view := inv.views other ept has
      by_cases here : other = vcpu
      · subst here
        rw [TlbHost.View] at view ⊢
        simp only [Function.update_self]
        rw [isStage] at view ⊢
        refine view.syncContext (fewer (state.eptp other)) fun page => ?_
        rw [Function.update_self]
        exact eptSyncContext_empties flushes _ _ page
      · rw [TlbHost.View] at view ⊢
        simp only [Function.update_of_ne here]
        exact view.shrink (fewer (state.eptp other))
  · simp at stepped

theorem TlbInv.loadVmcs (inv : TlbInv state)
    (stepped : tlbStep config caps state (.loadVmcs vcpu) = some next) : TlbInv next := by
  rw [tlbStep, Option.ite_none_right_eq_some, Option.map_eq_some_iff] at stepped
  obtain ⟨isSynced, vmx, loaded, rfl⟩ := stepped
  have after := inv.vmx.step loaded
  simp only [vmxStep] at loaded
  split at loaded
  · rename_i cur isStage
    obtain rfl := Option.some.inj loaded
    refine ⟨after, inv.tree, inv.apart, inv.inside, fun other otherSynced => ?_, fun other ept has => ?_⟩
    · dsimp only at otherSynced
      by_cases here : other = vcpu
      · rw [here, Function.update_self] at otherSynced
        exact absurd otherSynced (by simp)
      · rw [Function.update_of_ne here] at otherSynced
        have isCleared := inv.cleared other otherSynced
        simpa [RdmaPaging.loadVmcs, vmcsLoad, Vmx.setStage, Function.update_of_ne here] using isCleared
    · have view := inv.views other ept has
      by_cases here : other = vcpu
      · subst here
        rw [TlbHost.View, isStage, isSynced] at view
        simp only [TlbHost.View, RdmaPaging.loadVmcs, Function.update_self]
        exact view.loadVmcs
      · simpa only [TlbHost.View, RdmaPaging.loadVmcs, vmcsLoad, Vmx.setStage,
          Function.update_of_ne here] using view
  · simp at loaded

omit [DecidableEq Cpu] [DecidableEq Vcpu] in
/-- The guest that a thread runs is that of its own VCPU. -/
theorem TlbInv.running (inv : TlbInv state) {cur : Cpu} {loaded : Vcpu}
    (holds : state.vmx.stage vcpu = .holding cur) (isCurrent : state.vmx.current cur = some loaded) :
    loaded = vcpu ∧ state.vmx.cpu vcpu = some cur := by
  obtain ⟨_, _, _, home, current⟩ := inv.vmx.holding holds
  rw [current, Option.some.injEq] at isCurrent
  exact ⟨isCurrent.symm, home⟩

theorem TlbInv.translate (inv : TlbInv state)
    (stepped : tlbStep config caps state (.translate vcpu gpa) = some next) : TlbInv next := by
  simp only [tlbStep] at stepped
  split at stepped
  · rename_i cur holds noFault
    simp only [Option.bind_eq_some_iff, Option.map_eq_some_iff] at stepped
    obtain ⟨loaded, isCurrent, ept, has, leaf, maps, rfl⟩ := stepped
    obtain ⟨rfl, home⟩ := inv.running holds isCurrent
    refine ⟨inv.vmx, inv.tree, inv.apart, inv.inside, inv.cleared, fun other found isFound => ?_⟩
    have view := inv.views other found isFound
    by_cases here : other = loaded
    · subst here
      obtain rfl := Option.some.inj (has.symm.trans isFound)
      rw [TlbHost.View, home, holds, noFault] at view
      have filled := view.translate (gpa.toNat / 4096)
      rw [TlbHost.View]
      dsimp only
      rw [home, holds, noFault]
      convert filled using 2 with processor
      by_cases isCur : processor = cur
      · rw [isCur, Function.update_self, Function.update_self, Function.update_self, maps]
      · rw [Function.update_of_ne isCur, Function.update_of_ne isCur]
    · have apart : state.eptp other ≠ state.eptp loaded := fun same =>
        here (inv.apart other loaded (by rw [isFound]; simp) (by rw [has]; simp) same)
      have same : (fun processor => update state.tlb cur (update (state.tlb cur) (state.eptp loaded)
          (update (state.tlb cur (state.eptp loaded)) (gpa.toNat / 4096) (some leaf))) processor
            (state.eptp other)) = fun processor => state.tlb processor (state.eptp other) := by
        funext processor
        by_cases isCur : processor = cur
        · rw [isCur, Function.update_self, Function.update_of_ne apart]
        · rw [Function.update_of_ne isCur]
      rw [TlbHost.View] at view ⊢
      dsimp only
      rw [same]
      exact view
  · simp at stepped

omit [DecidableEq Cpu] in
/-- A step about one VCPU that caches nothing. -/
theorem TlbInv.ofOne (inv : TlbInv state) (sameVmx : next.vmx = state.vmx)
    (samePointer : next.eptp = state.eptp) (sameSynced : next.synced = state.synced)
    (fewer : ∀ tag processor page leaf, next.tlb processor tag page = some leaf →
      state.tlb processor tag page = some leaf)
    (others : ∀ other, other ≠ vcpu → next.ept other = state.ept other ∧
      next.fault other = state.fault other ∧ next.calls other = state.calls other)
    (had : next.ept vcpu ≠ none → state.ept vcpu ≠ none)
    (inside : ∀ gpa, next.fault vcpu = some gpa → gpa.toNat < 2 ^ 48)
    (own : ∀ ept, next.ept vcpu = some ept → EptTree ept ∧ next.View vcpu ept) : TlbInv next := by
  have kept : ∀ other, next.ept other ≠ none → state.ept other ≠ none := by
    intro other has
    by_cases here : other = vcpu
    · rw [here] at has ⊢
      exact had has
    · rwa [← (others other here).1]
  refine ⟨sameVmx ▸ inv.vmx, fun other ept has => ?_, fun first second isFirst isSecond same => ?_,
    fun other gpa faults => ?_, fun other isSynced => ?_, fun other ept has => ?_⟩
  · by_cases here : other = vcpu
    · exact (own ept (here ▸ has)).1
    · exact inv.tree other ept ((others other here).1.symm.trans has)
  · rw [samePointer] at same
    exact inv.apart first second (kept first isFirst) (kept second isSecond) same
  · by_cases here : other = vcpu
    · exact inside gpa (here ▸ faults)
    · exact inv.inside other gpa ((others other here).2.1.symm.trans faults)
  · rw [sameVmx]
    exact inv.cleared other (by rwa [← sameSynced])
  · by_cases here : other = vcpu
    · subst here
      exact (own ept has).2
    · obtain ⟨sameEpt, sameFault, sameCalls⟩ := others other here
      have view := inv.views other ept (sameEpt.symm.trans has)
      rw [TlbHost.View] at view ⊢
      rw [sameVmx, samePointer, sameSynced, sameFault, sameCalls]
      exact view.shrink (fewer (state.eptp other))

theorem TlbInv.violate (inv : TlbInv state)
    (stepped : tlbStep config caps state (.violate vcpu gpa) = some next) : TlbInv next := by
  simp only [tlbStep] at stepped
  split at stepped
  · rename_i cur holds noFault
    simp only [Option.bind_eq_some_iff, Option.ite_none_right_eq_some, Option.some.injEq] at stepped
    obtain ⟨loaded, isCurrent, inside, rfl⟩ := stepped
    obtain ⟨rfl, home⟩ := inv.running holds isCurrent
    have fewer : ∀ tag processor page leaf,
        update state.tlb cur (invept .individualAddr (state.eptp loaded) gpa (state.tlb cur)) processor tag
          page = some leaf → state.tlb processor tag page = some leaf :=
      update_shrinks fun _ _ _ kept => (invept_address kept).1
    refine inv.ofOne rfl rfl rfl fewer
      (fun other different => ⟨rfl, Function.update_of_ne different _ _, rfl⟩) id ?_ ?_
    · intro address faults
      dsimp only at faults
      rw [Function.update_self, Option.some.injEq] at faults
      exact faults ▸ inside
    · intro ept has
      have view := inv.views loaded ept has
      rw [TlbHost.View, home, noFault] at view
      refine ⟨inv.tree loaded ept has, ?_⟩
      rw [TlbHost.View]
      dsimp only
      rw [home, Function.update_self]
      refine view.violate (fewer (state.eptp loaded)) fun page leaf cached => ?_
      rw [Function.update_self] at cached
      exact (invept_address cached).2 rfl
  · simp at stepped

theorem TlbInv.endFault {faultFlags : BitVec 32} {gup : Option GupPage} {source : PfnSource}
    {supply : Supply} (inv : TlbInv state)
    (allowed : tlbRule state (.endFault vcpu faultFlags gup source supply))
    (stepped : tlbStep config caps state (.endFault vcpu faultFlags gup source supply) = some next) :
    TlbInv next := by
  rw [tlbStep, Option.bind_eq_some_iff] at stepped
  obtain ⟨gpa, faults, stepped⟩ := stepped
  rw [Option.map_eq_some_iff] at stepped
  obtain ⟨ept, has, rfl⟩ := stepped
  obtain ⟨fresh, own⟩ := allowed ept gpa has faults
  have tree := inv.tree vcpu ept has
  refine inv.ofOne rfl rfl rfl (fun _ _ _ _ cached => cached)
    (fun other different => ⟨Function.update_of_ne different _ _, Function.update_of_ne different _ _, rfl⟩)
    (fun _ => by rw [has]; simp) ?_ ?_
  · intro address faults
    dsimp only at faults
    rw [Function.update_self] at faults
    exact absurd faults (by simp)
  · intro after isAfter
    dsimp only at isAfter
    rw [Function.update_self, Option.some.injEq] at isAfter
    subst isAfter
    have allowed : eptGuard ept (.fault gpa faultFlags gup source supply) := fresh
    have view := inv.views vcpu ept has
    rw [TlbHost.View, faults] at view
    refine ⟨(eptStep_balanced tree allowed rfl).1, ?_⟩
    rw [TlbHost.View]
    dsimp only
    rw [Function.update_self]
    exact view.endFault
      (vmxDoEptFault_changesBlock faultFlags gup source tree fresh (inv.inside vcpu gpa faults)) own

theorem TlbInv.callback {callback : EptCallback} (wide : 32 ≤ config.physBits)
    (narrow : config.physBits ≤ 48) (inv : TlbInv state)
    (stepped : tlbStep config caps state (.callback vcpu callback) = some next) : TlbInv next := by
  rw [tlbStep, Option.bind_eq_some_iff] at stepped
  obtain ⟨ept, has, stepped⟩ := stepped
  rw [Option.map_eq_some_iff] at stepped
  obtain ⟨⟨sync, after⟩, done, rfl⟩ := stepped
  have syncs := eptCallback_syncs wide narrow (inv.tree vcpu ept has) done
  refine inv.ofOne rfl rfl rfl (fun _ _ _ _ cached => cached)
    (fun other different => ⟨Function.update_of_ne different _ _, rfl, Function.update_of_ne different _ _⟩)
    (fun _ => by rw [has]; simp) (inv.inside vcpu) ?_
  intro found isFound
  dsimp only at isFound
  rw [Function.update_self, Option.some.injEq] at isFound
  subst isFound
  have view := inv.views vcpu ept has
  refine ⟨syncs.tree, ?_⟩
  rw [TlbHost.View] at view ⊢
  dsimp only
  rw [Function.update_self]
  exact view.callback syncs

theorem TlbInv.readCpu {index : Nat} (inv : TlbInv state)
    (stepped : tlbStep config caps state (.readCpu vcpu index) = some next) : TlbInv next := by
  simp only [tlbStep] at stepped
  split at stepped
  · rename_i kind found
    obtain rfl := Option.some.inj stepped
    refine inv.ofOne rfl rfl rfl (fun _ _ _ _ cached => cached)
      (fun other different => ⟨rfl, rfl, Function.update_of_ne different _ _⟩) id (inv.inside vcpu) ?_
    intro ept has
    have view := inv.views vcpu ept has
    refine ⟨inv.tree vcpu ept has, ?_⟩
    rw [TlbHost.View] at view ⊢
    dsimp only
    rw [Function.update_self, RdmaPaging.readCpu]
    rcases home : state.vmx.cpu vcpu with _ | cpu
    · exact ⟨fun _ isHome => absurd isHome (by simp), fun _ _ isHome => absurd isHome (by simp), view.fresh⟩
    · rw [home] at view
      exact view.readCpu found
  · simp at stepped

theorem TlbInv.syncHelper {index : Nat} (flushes : FlushesContext caps) (inv : TlbInv state)
    (stepped : tlbStep config caps state (.syncHelper vcpu index) = some next) : TlbInv next := by
  simp only [tlbStep] at stepped
  split at stepped
  · rename_i kind cpu found
    obtain rfl := Option.some.inj stepped
    have fewer : ∀ tag processor page leaf,
        update state.tlb cpu (kind.sync caps (state.eptp vcpu) (state.tlb cpu)) processor tag page =
          some leaf → state.tlb processor tag page = some leaf :=
      update_shrinks fun _ _ _ kept => (SyncKind.sync_spec flushes kept).1
    refine inv.ofOne rfl rfl rfl fewer
      (fun other different => ⟨rfl, rfl, Function.update_of_ne different _ _⟩) id (inv.inside vcpu) ?_
    intro ept has
    have view := inv.views vcpu ept has
    refine ⟨inv.tree vcpu ept has, ?_⟩
    rw [TlbHost.View] at view ⊢
    dsimp only
    rw [Function.update_self]
    refine view.syncHelper found (fewer (state.eptp vcpu)) fun page leaf cached => ?_
    rw [Function.update_self] at cached
    exact (SyncKind.sync_spec flushes cached).2 rfl
  · simp at stepped

theorem TlbInv.destroyEpt (inv : TlbInv state)
    (stepped : tlbStep config caps state (.destroyEpt vcpu) = some next) : TlbInv next := by
  rw [tlbStep, Option.ite_none_right_eq_some, Option.some.injEq] at stepped
  obtain ⟨_, rfl⟩ := stepped
  have gone : update state.ept vcpu none vcpu = none := Function.update_self ..
  refine inv.ofOne rfl rfl rfl (fun _ _ _ _ cached => cached)
    (fun other different => ⟨Function.update_of_ne different _ _, rfl, rfl⟩)
    (fun has => absurd gone has) (inv.inside vcpu) ?_
  intro ept has
  exact absurd (gone.symm.trans has) (by simp)

theorem TlbInv.destroyVcpu (inv : TlbInv state)
    (stepped : tlbStep config caps state (.destroyVcpu vcpu) = some next) : TlbInv next := by
  simp only [tlbStep] at stepped
  split at stepped
  · rename_i cur holds noEpt
    rw [Option.map_eq_some_iff] at stepped
    obtain ⟨vmx, destroyed, rfl⟩ := stepped
    have after := inv.vmx.step destroyed
    have fewer : ∀ tag processor page leaf,
        update state.tlb cur (eptSyncContext caps (state.eptp vcpu) (state.tlb cur)) processor tag page =
          some leaf → state.tlb processor tag page = some leaf :=
      update_shrinks fun _ _ _ kept => eptSyncContext_shrinks kept
    simp only [vmxStep, holds, Option.some.injEq] at destroyed
    subst destroyed
    have elsewhere : ∀ other, other ≠ vcpu →
        (vmxDestroyVcpu state.vmx vcpu cur).stage other = state.vmx.stage other :=
      fun other different => Function.update_of_ne different _ _
    have unsynced : state.synced vcpu = false := by
      by_contra isSynced
      have isCleared := inv.cleared vcpu (by simpa using isSynced)
      simp [holds, GetStage.isCleared] at isCleared
    refine ⟨after, inv.tree, inv.apart, inv.inside, fun other isSynced => ?_, fun other ept has => ?_⟩
    · have different : other ≠ vcpu := by
        rintro rfl
        simp [unsynced] at isSynced
      dsimp only
      rw [elsewhere other different]
      exact inv.cleared other isSynced
    · have different : other ≠ vcpu := by
        rintro rfl
        exact absurd (noEpt.symm.trans has) (by simp)
      have view := (inv.views other ept has).shrink (fewer (state.eptp other))
      rw [TlbHost.View]
      dsimp only
      rw [elsewhere other different]
      exact view
  · simp at stepped

theorem TlbInv.step {action : TlbAction Cpu Vcpu} (wide : 32 ≤ config.physBits)
    (narrow : config.physBits ≤ 48) (flushes : FlushesContext caps) (inv : TlbInv state)
    (allowed : tlbRule state action) (stepped : tlbStep config caps state action = some next) :
    TlbInv next := by
  cases action with
  | createVcpu vcpu garbage mem page => exact inv.createVcpu allowed stepped
  | move action =>
      rw [tlbStep, Option.ite_none_right_eq_some, Option.map_eq_some_iff] at stepped
      obtain ⟨moves, vmx, stepped, rfl⟩ := stepped
      exact inv.move moves stepped
  | syncContext vcpu => exact inv.syncContext flushes stepped
  | loadVmcs vcpu => exact inv.loadVmcs stepped
  | translate vcpu gpa => exact inv.translate stepped
  | violate vcpu gpa => exact inv.violate stepped
  | endFault vcpu faultFlags gup source supply => exact inv.endFault allowed stepped
  | callback vcpu callback => exact inv.callback wide narrow stepped
  | readCpu vcpu index => exact inv.readCpu stepped
  | syncHelper vcpu index => exact inv.syncHelper flushes stepped
  | destroyEpt vcpu => exact inv.destroyEpt stepped
  | destroyVcpu vcpu => exact inv.destroyVcpu stepped

omit [DecidableEq Cpu] [DecidableEq Vcpu] in
theorem bootTlb_inv (tlb : Cpu → Tlb) : TlbInv (bootTlb Cpu Vcpu tlb) := by
  refine ⟨bootVmx_inv, ?_, ?_, ?_, ?_, ?_⟩ <;> simp [bootTlb]

/-- In every run of any number of VCPUs on any processors, with callbacks and faults in any order: a
thread runs the guest of its own VCPU, and what the processor has cached for that guest is in the EPT
or has a flush under way that reaches the processor. The EPTs have 48 bits, and a huge page is
entered only where no other entry maps a part of it. -/
theorem cached_translations_current {tlb : Cpu → Tlb} (wide : 32 ≤ config.physBits)
    (narrow : config.physBits ≤ 48) (flushes : FlushesContext caps)
    (run : Machine.Reaches (tlbStep config caps) tlbRule (bootTlb Cpu Vcpu tlb) state)
    {cur : Cpu} {loaded : Vcpu} (holds : state.vmx.stage vcpu = .holding cur)
    (isCurrent : state.vmx.current cur = some loaded) (has : state.ept loaded = some ept) :
    loaded = vcpu ∧ ∀ page leaf, state.tlb cur (state.eptp loaded) page = some leaf →
      ept.pages page = some leaf ∨ Owed (state.calls loaded) cur page := by
  have inv : TlbInv state := run.invariant TlbInv (bootTlb_inv tlb)
    fun _ _ _ inv allowed stepped => inv.step wide narrow flushes allowed stepped
  obtain ⟨rfl, home⟩ := inv.running holds isCurrent
  exact ⟨rfl, (inv.views loaded ept has).coherent cur home⟩

/-- A processor that flushes the translations of one EPT. -/
def contextCaps : BitVec 32 := vmxEptExtentContextBit

def faultedPage : GupPage := ⟨⟨0x9000#64, by decide⟩, ⟨0x9000#64, by decide⟩, 0⟩

def coldTlb : TlbHost Nat Nat := bootTlb Nat Nat fun _ _ _ => none

/-- VCPU 0 comes to processor 0, faults on a page and reads it, and a callback takes the page back. -/
def takenBack : List (TlbAction Nat Nat) :=
  [.createVcpu 0 false (fun _ _ => 0) ⟨0x1000#64, by decide⟩, .move (.getCpu 0 0), .move (.compareCpu 0),
    .syncContext 0, .loadVmcs 0, .move (.runVcpu 0 true), .violate 0 0x400000#64,
    .endFault 0 0#32 (some faultedPage) .noVma threeTables, .translate 0 0x400000#64,
    .callback 0 (.invalidatePage 0x400000#64)]

theorem takenBack_runs : ∃ state, Machine.Reaches (tlbStep spacedEpt contextCaps) tlbRule coldTlb state ∧
    takenBack.foldlM (tlbStep spacedEpt contextCaps) coldTlb = some state ∧
    state.vmx.stage 0 = .holding 0 ∧ state.vmx.current 0 = some 0 := by
  have go : ∀ {state next : TlbHost Nat Nat} (action : TlbAction Nat Nat),
      Machine.Reaches (tlbStep spacedEpt contextCaps) tlbRule coldTlb state → tlbRule state action →
      tlbStep spacedEpt contextCaps state action = some next →
      Machine.Reaches (tlbStep spacedEpt contextCaps) tlbRule coldTlb next :=
    fun _ reached allowed stepped => reached.tail allowed stepped
  have created := go (.createVcpu 0 false (fun _ _ => 0) ⟨0x1000#64, by decide⟩) .refl
    (fun _ has => absurd rfl has) rfl
  have entered := go (.move (.compareCpu 0)) (go (.move (.getCpu 0 0)) created trivial rfl) trivial rfl
  have loaded := go (.loadVmcs 0) (go (.syncContext 0) entered trivial rfl) trivial rfl
  have violated := go (.violate 0 0x400000#64) (go (.move (.runVcpu 0 true)) loaded trivial rfl) trivial rfl
  have resolved := go (.endFault 0 0#32 (some faultedPage) .noVma threeTables) violated
    (fun ept gpa isEpt _ => Option.some.inj (show some firstEpt = some ept from isEpt) ▸
      ⟨threeTables_fresh, replacesOwn_zero _ _⟩) rfl
  have used := go (.translate 0 0x400000#64) resolved trivial rfl
  exact ⟨_, go (.callback 0 (.invalidatePage 0x400000#64)) used trivial rfl, rfl, rfl, rfl⟩

/-- The processor still has the page that the callback took from the EPT, and its flush is owed. -/
theorem cached_translations_current_takenBack : ∃ state ept,
    takenBack.foldlM (tlbStep spacedEpt contextCaps) coldTlb = some state ∧
    (state.tlb 0 (state.eptp 0) 0x400).isSome = true ∧ state.ept 0 = some ept ∧ ept.pages 0x400 = none ∧
    (0 = 0 ∧ ∀ page leaf, state.tlb 0 (state.eptp 0) page = some leaf →
      ept.pages page = some leaf ∨ Owed (state.calls 0) 0 page) := by
  obtain ⟨state, run, reached, holds, isCurrent⟩ := takenBack_runs
  have seen : (takenBack.foldlM (tlbStep spacedEpt contextCaps) coldTlb).map (fun state =>
      ((state.tlb 0 (state.eptp 0) 0x400).isSome, (state.ept 0).map fun ept => (ept.pages 0x400).isSome)) =
      some (true, some false) := by decide +kernel
  rw [reached, Option.map_some, Option.some.injEq, Prod.mk.injEq, Option.map_eq_some_iff] at seen
  obtain ⟨cached, ept, has, unmapped⟩ := seen
  exact ⟨state, ept, reached, cached, has, Option.not_isSome_iff_eq_none.mp (by simp [unmapped]),
    cached_translations_current (by decide) (by decide) (Or.inl (by decide)) run holds isCurrent has⟩

end RdmaPaging
