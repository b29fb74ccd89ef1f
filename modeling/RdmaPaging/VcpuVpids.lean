import Mathlib.Logic.Function.Basic
import RdmaPaging.Machine

/-!
The VPIDs of the VCPUs. Any number of processes create and destroy VCPUs, and their steps
interleave. A VCPU holds its VPID from the allocation to the release, which every unwind
path after the allocation and the destruction come to.

`VMX_NR_VPIDS` is defined in the headers of the host's kernel and is a parameter here.
-/

namespace RdmaPaging

open Function (update)

abbrev VpidBitmap := Nat → Bool

/-- The first clear bit below `size`, or `size`. -/
def findFirstZeroBit (bitmap : VpidBitmap) (size : Nat) : Nat :=
  ((List.range size).find? fun bit => !bitmap bit).getD size

/-- The result of `vmx_allocate_vpid`, the VPID that it enters in the VCPU and the bitmap. -/
def vmxAllocateVpid (nrVpids : Nat) (bitmap : VpidBitmap) : Bool × Nat × VpidBitmap :=
  let vpid := findFirstZeroBit bitmap nrVpids
  if vpid < nrVpids then (false, vpid, update bitmap vpid true) else (true, 0, bitmap)

def vmxFreeVpid (vpid : Nat) (bitmap : VpidBitmap) : VpidBitmap :=
  if vpid ≠ 0 then update bitmap vpid false else bitmap

/-- How far a VCPU has come: its memory and its VMCS are allocated, it has a VPID, it has an
EPT and its VMCS is written, it is complete, or it is on its way out. -/
inductive VcpuLife
  | absent
  | allocated
  | numbered
  | loaded
  | live
  | leaving
  deriving DecidableEq

@[grind =] def VcpuLife.holds : VcpuLife → Bool
  | .absent | .allocated => false
  | .numbered | .loaded | .live | .leaving => true

structure Vpids (Vcpu : Type) where
  bitmap : VpidBitmap
  life : Vcpu → VcpuLife
  vpid : Vcpu → Nat

/-- The steps of `vmx_create_vcpu`, with what the host answers, and of `vmx_destroy_vcpu`.
`freeVpid` ends both the destruction and a creation that fails after the allocation. -/
inductive VpidAction (Vcpu : Type)
  | allocVcpu (vcpu : Vcpu) (vmcsOk : Bool)
  | allocateVpid (vcpu : Vcpu)
  | initEpt (vcpu : Vcpu) (rootOk : Bool)
  | createEpt (vcpu : Vcpu) (registered : Bool)
  | destroy (vcpu : Vcpu)
  | freeVpid (vcpu : Vcpu)

variable {Vcpu : Type} [DecidableEq Vcpu] {nrVpids : Nat}

def Vpids.setLife (state : Vpids Vcpu) (vcpu : Vcpu) (life : VcpuLife) : Vpids Vcpu :=
  { state with life := update state.life vcpu life }

def allocateVpidStep (nrVpids : Nat) (state : Vpids Vcpu) (vcpu : Vcpu) : Vpids Vcpu :=
  match vmxAllocateVpid nrVpids state.bitmap with
  | (failed, vpid, bitmap) =>
      { bitmap := bitmap
        life := update state.life vcpu (if failed then .absent else .numbered)
        vpid := update state.vpid vcpu vpid }

def freeVpidStep (state : Vpids Vcpu) (vcpu : Vcpu) : Vpids Vcpu :=
  { state.setLife vcpu .absent with bitmap := vmxFreeVpid (state.vpid vcpu) state.bitmap }

def vpidStep (nrVpids : Nat) (state : Vpids Vcpu) : VpidAction Vcpu → Option (Vpids Vcpu)
  | .allocVcpu vcpu vmcsOk =>
      if state.life vcpu = .absent then
        some (state.setLife vcpu (if vmcsOk then .allocated else .absent))
      else none
  | .allocateVpid vcpu =>
      if state.life vcpu = .allocated then some (allocateVpidStep nrVpids state vcpu) else none
  | .initEpt vcpu rootOk =>
      if state.life vcpu = .numbered then
        some (state.setLife vcpu (if rootOk then .loaded else .leaving))
      else none
  | .createEpt vcpu registered =>
      if state.life vcpu = .loaded then
        some (state.setLife vcpu (if registered then .live else .leaving))
      else none
  | .destroy vcpu =>
      if state.life vcpu = .live then some (state.setLife vcpu .leaving) else none
  | .freeVpid vcpu =>
      if state.life vcpu = .leaving then some (freeVpidStep state vcpu) else none

/-- After `vmx_init`: VPID 0 is reserved for the host. -/
def bootVpids (Vcpu : Type) : Vpids Vcpu where
  bitmap := update (fun _ => false) 0 true
  life := fun _ => .absent
  vpid := fun _ => 0

def Vpids.Holds (state : Vpids Vcpu) (vcpu : Vcpu) : Prop := (state.life vcpu).holds = true

/-- No creation is between the allocation of its VPID and its end, and no destruction is in
progress. -/
def Vpids.Settled (state : Vpids Vcpu) : Prop :=
  ∀ vcpu, state.Holds vcpu → state.life vcpu = .live

/-- The set bits are 0 and the VPIDs held, each by one VCPU. -/
structure VpidsSound (nrVpids : Nat) (state : Vpids Vcpu) : Prop where
  distinct : ∀ vcpu other, state.Holds vcpu → state.Holds other →
    state.vpid vcpu = state.vpid other → vcpu = other
  nonzero : ∀ vcpu, state.Holds vcpu → state.vpid vcpu ≠ 0
  bounded : ∀ vcpu, state.Holds vcpu → state.vpid vcpu < nrVpids
  exact : ∀ bit, state.bitmap bit = true ↔ bit = 0 ∨ ∃ vcpu, state.Holds vcpu ∧ state.vpid vcpu = bit

theorem findFirstZeroBit_clear {bitmap : VpidBitmap} {size : Nat}
    (found : findFirstZeroBit bitmap size < size) :
    bitmap (findFirstZeroBit bitmap size) = false := by
  unfold findFirstZeroBit at found ⊢
  cases first : (List.range size).find? fun bit => !bitmap bit with
  | none =>
      rw [first] at found
      exact absurd found (Nat.lt_irrefl size)
  | some bit => simpa using List.find?_some first

theorem findFirstZeroBit_full {bitmap : VpidBitmap} {size : Nat}
    (missed : ¬ findFirstZeroBit bitmap size < size) : ∀ bit < size, bitmap bit = true := by
  unfold findFirstZeroBit at missed
  cases first : (List.range size).find? fun bit => !bitmap bit with
  | none =>
      intro bit bound
      have nowhere := List.find?_eq_none.mp first bit (List.mem_range.mpr bound)
      simpa using nowhere
  | some bit =>
      rw [first] at missed
      exact absurd (List.mem_range.mp (List.mem_of_find?_eq_some first)) missed

theorem findFirstZeroBit_first {bitmap : VpidBitmap} {size : Nat} :
    ∀ bit < findFirstZeroBit bitmap size, bit < size → bitmap bit = true := by
  unfold findFirstZeroBit
  cases first : (List.range size).find? fun bit => !bitmap bit with
  | none =>
      intro bit _ bound
      have nowhere := List.find?_eq_none.mp first bit (List.mem_range.mpr bound)
      simpa using nowhere
  | some found =>
      intro bit below _
      have before := (List.find?_range_eq_some.mp first).2.2 bit below
      simpa using before

/-- The two outcomes of an allocation. -/
theorem vmxAllocateVpid_cases (nrVpids : Nat) (bitmap : VpidBitmap) :
    (∃ vpid, vmxAllocateVpid nrVpids bitmap = (false, vpid, update bitmap vpid true) ∧
      vpid < nrVpids ∧ bitmap vpid = false ∧ ∀ bit < vpid, bitmap bit = true) ∨
    (vmxAllocateVpid nrVpids bitmap = (true, 0, bitmap) ∧ ∀ bit < nrVpids, bitmap bit = true) := by
  simp only [vmxAllocateVpid]
  by_cases found : findFirstZeroBit bitmap nrVpids < nrVpids
  · rw [if_pos found]
    exact Or.inl ⟨_, rfl, found, findFirstZeroBit_clear found,
      fun bit below => findFirstZeroBit_first bit below (Nat.lt_trans below found)⟩
  · rw [if_neg found]
    exact Or.inr ⟨rfl, findFirstZeroBit_full found⟩

variable {state next : Vpids Vcpu} {vcpu : Vcpu}

@[simp] theorem Vpids.setLife_life (state : Vpids Vcpu) (vcpu : Vcpu) (life : VcpuLife) :
    (state.setLife vcpu life).life = update state.life vcpu life := rfl

@[simp] theorem Vpids.setLife_vpid (state : Vpids Vcpu) (vcpu : Vcpu) (life : VcpuLife) :
    (state.setLife vcpu life).vpid = state.vpid := rfl

@[simp] theorem Vpids.setLife_bitmap (state : Vpids Vcpu) (vcpu : Vcpu) (life : VcpuLife) :
    (state.setLife vcpu life).bitmap = state.bitmap := rfl

omit [DecidableEq Vcpu] in
/-- The holders, their VPIDs and the bitmap are all that counts. -/
theorem VpidsSound.congr (sound : VpidsSound nrVpids state)
    (holds : ∀ vcpu, next.Holds vcpu ↔ state.Holds vcpu)
    (vpids : ∀ vcpu, state.Holds vcpu → next.vpid vcpu = state.vpid vcpu)
    (bitmap : next.bitmap = state.bitmap) : VpidsSound nrVpids next := by
  refine ⟨?_, ?_, ?_, ?_⟩
  · intro vcpu other held otherHeld equal
    rw [holds] at held otherHeld
    rw [vpids vcpu held, vpids other otherHeld] at equal
    exact sound.distinct vcpu other held otherHeld equal
  · intro vcpu held
    rw [holds] at held
    rw [vpids vcpu held]
    exact sound.nonzero vcpu held
  · intro vcpu held
    rw [holds] at held
    rw [vpids vcpu held]
    exact sound.bounded vcpu held
  · intro bit
    rw [bitmap, sound.exact bit]
    refine or_congr Iff.rfl (exists_congr fun vcpu => ?_)
    rw [holds vcpu]
    refine and_congr_right fun held => ?_
    rw [vpids vcpu held]

/-- Steps that neither take nor release a VPID. -/
theorem VpidsSound.setLife {life : VcpuLife} (sound : VpidsSound nrVpids state)
    (same : life.holds = (state.life vcpu).holds) :
    VpidsSound nrVpids (state.setLife vcpu life) := by
  refine sound.congr (fun other => ?_) (fun _ _ => rfl) rfl
  by_cases isVcpu : other = vcpu
  · subst isVcpu
    simp [Vpids.Holds, same]
  · simp [Vpids.Holds, isVcpu]

/-- A VCPU takes a VPID whose bit was clear. -/
theorem VpidsSound.take {vpid : Nat} (sound : VpidsSound nrVpids state)
    (outside : ¬ state.Holds vcpu) (bound : vpid < nrVpids) (clear : state.bitmap vpid = false) :
    VpidsSound nrVpids
      { bitmap := update state.bitmap vpid true
        life := update state.life vcpu .numbered
        vpid := update state.vpid vcpu vpid } := by
  have unused : vpid ≠ 0 ∧ ∀ other, state.Holds other → state.vpid other ≠ vpid := by
    have absent := (not_congr (sound.exact vpid)).mp (by simp [clear])
    exact ⟨fun zero => absent (Or.inl zero), fun other held same => absent (Or.inr ⟨other, held, same⟩)⟩
  have holds : ∀ other, Vpids.Holds
      { bitmap := update state.bitmap vpid true
        life := update state.life vcpu .numbered
        vpid := update state.vpid vcpu vpid } other ↔ other = vcpu ∨ state.Holds other := by
    intro other
    by_cases isVcpu : other = vcpu
    · subst isVcpu
      simp [Vpids.Holds, VcpuLife.holds]
    · simp [Vpids.Holds, isVcpu]
  have apart : ∀ other, state.Holds other → other ≠ vcpu := by
    intro other held same
    exact outside (same ▸ held)
  refine ⟨?_, ?_, ?_, ?_⟩
  · intro one other oneHolds otherHolds equal
    dsimp only at equal
    rcases (holds one).mp oneHolds with rfl | oneHeld
    · rcases (holds other).mp otherHolds with rfl | otherHeld
      · rfl
      · rw [Function.update_self, Function.update_of_ne (apart other otherHeld)] at equal
        exact absurd equal.symm (unused.2 other otherHeld)
    · rcases (holds other).mp otherHolds with rfl | otherHeld
      · rw [Function.update_self, Function.update_of_ne (apart one oneHeld)] at equal
        exact absurd equal (unused.2 one oneHeld)
      · rw [Function.update_of_ne (apart one oneHeld),
          Function.update_of_ne (apart other otherHeld)] at equal
        exact sound.distinct one other oneHeld otherHeld equal
  · intro other held
    rcases (holds other).mp held with rfl | otherHeld
    · simpa using unused.1
    · simpa [apart other otherHeld] using sound.nonzero other otherHeld
  · intro other held
    rcases (holds other).mp held with rfl | otherHeld
    · simpa using bound
    · simpa [apart other otherHeld] using sound.bounded other otherHeld
  · intro bit
    simp only [holds]
    by_cases isVpid : bit = vpid
    · subst isVpid
      simp only [Function.update_self, true_iff]
      exact Or.inr ⟨vcpu, Or.inl rfl, Function.update_self ..⟩
    · rw [Function.update_of_ne isVpid, sound.exact bit]
      refine or_congr Iff.rfl ⟨?_, ?_⟩
      · rintro ⟨other, held, rfl⟩
        exact ⟨other, Or.inr held, Function.update_of_ne (apart other held) ..⟩
      · rintro ⟨other, rfl | held, same⟩
        · rw [Function.update_self] at same
          exact absurd same.symm isVpid
        · rw [Function.update_of_ne (apart other held)] at same
          exact ⟨other, held, same⟩

/-- A VCPU gives its VPID back. -/
theorem VpidsSound.release (sound : VpidsSound nrVpids state) (held : state.Holds vcpu) :
    VpidsSound nrVpids (freeVpidStep state vcpu) := by
  have nonzero := sound.nonzero vcpu held
  have bitmap : (freeVpidStep state vcpu).bitmap = update state.bitmap (state.vpid vcpu) false := by
    simp only [freeVpidStep, vmxFreeVpid, if_pos nonzero]
  have holds : ∀ other, (freeVpidStep state vcpu).Holds other ↔
      other ≠ vcpu ∧ state.Holds other := by
    intro other
    by_cases isVcpu : other = vcpu
    · subst isVcpu
      simp [Vpids.Holds, freeVpidStep, VcpuLife.holds]
    · simp [Vpids.Holds, freeVpidStep, isVcpu]
  refine ⟨?_, ?_, ?_, ?_⟩
  · intro one other oneHolds otherHolds equal
    exact sound.distinct one other ((holds one).mp oneHolds).2 ((holds other).mp otherHolds).2 equal
  · intro other otherHolds
    exact sound.nonzero other ((holds other).mp otherHolds).2
  · intro other otherHolds
    exact sound.bounded other ((holds other).mp otherHolds).2
  · intro bit
    have vpid : (freeVpidStep state vcpu).vpid = state.vpid := rfl
    simp only [holds, bitmap, vpid]
    by_cases isVpid : bit = state.vpid vcpu
    · subst isVpid
      simp only [Function.update_self, Bool.false_eq_true, false_iff, not_or, nonzero,
        not_false_eq_true, true_and, not_exists]
      rintro other ⟨⟨different, otherHeld⟩, same⟩
      exact different (sound.distinct other vcpu otherHeld held same)
    · rw [Function.update_of_ne isVpid, sound.exact bit]
      refine or_congr Iff.rfl ⟨?_, ?_⟩
      · rintro ⟨other, otherHeld, rfl⟩
        exact ⟨other, ⟨fun same => isVpid (by rw [same]), otherHeld⟩, rfl⟩
      · rintro ⟨other, ⟨_, otherHeld⟩, same⟩
        exact ⟨other, otherHeld, same⟩

theorem allocateVpid_sound (sound : VpidsSound nrVpids state) (waiting : state.life vcpu = .allocated) :
    VpidsSound nrVpids (allocateVpidStep nrVpids state vcpu) := by
  have outside : ¬ state.Holds vcpu := by simp [Vpids.Holds, waiting, VcpuLife.holds]
  rcases vmxAllocateVpid_cases nrVpids state.bitmap with
    ⟨vpid, result, bound, clear, _⟩ | ⟨result, _⟩
  · rw [allocateVpidStep, result]
    exact sound.take outside bound clear
  · rw [allocateVpidStep, result]
    -- the VPID field is cleared, but the VCPU holds no VPID
    refine sound.congr (fun other => ?_) (fun other held => ?_) rfl
    · by_cases isVcpu : other = vcpu
      · subst isVcpu
        simp [Vpids.Holds, waiting, VcpuLife.holds]
      · simp [Vpids.Holds, isVcpu]
    · have apart : other ≠ vcpu := fun same => outside (same ▸ held)
      exact Function.update_of_ne apart ..

theorem vpidStep_sound {action : VpidAction Vcpu} (sound : VpidsSound nrVpids state)
    (stepped : vpidStep nrVpids state action = some next) : VpidsSound nrVpids next := by
  cases action with
  | allocVcpu vcpu vmcsOk =>
      simp only [vpidStep, Option.ite_none_right_eq_some, Option.some.injEq] at stepped
      obtain ⟨absent, rfl⟩ := stepped
      apply sound.setLife
      cases vmcsOk <;> simp [absent, VcpuLife.holds]
  | allocateVpid vcpu =>
      simp only [vpidStep, Option.ite_none_right_eq_some, Option.some.injEq] at stepped
      obtain ⟨waiting, rfl⟩ := stepped
      exact allocateVpid_sound sound waiting
  | initEpt vcpu rootOk =>
      simp only [vpidStep, Option.ite_none_right_eq_some, Option.some.injEq] at stepped
      obtain ⟨numbered, rfl⟩ := stepped
      apply sound.setLife
      cases rootOk <;> simp [numbered, VcpuLife.holds]
  | createEpt vcpu registered =>
      simp only [vpidStep, Option.ite_none_right_eq_some, Option.some.injEq] at stepped
      obtain ⟨loaded, rfl⟩ := stepped
      apply sound.setLife
      cases registered <;> simp [loaded, VcpuLife.holds]
  | destroy vcpu =>
      simp only [vpidStep, Option.ite_none_right_eq_some, Option.some.injEq] at stepped
      obtain ⟨live, rfl⟩ := stepped
      exact sound.setLife (by rw [live]; rfl)
  | freeVpid vcpu =>
      simp only [vpidStep, Option.ite_none_right_eq_some, Option.some.injEq] at stepped
      obtain ⟨leaving, rfl⟩ := stepped
      exact sound.release (by simp [Vpids.Holds, leaving, VcpuLife.holds])

omit [DecidableEq Vcpu] in
theorem bootVpids_sound (nrVpids : Nat) : VpidsSound nrVpids (bootVpids Vcpu) := by
  have nobody : ∀ vcpu, ¬ (bootVpids Vcpu).Holds vcpu := by
    intro vcpu
    simp [Vpids.Holds, bootVpids, VcpuLife.holds]
  refine ⟨?_, ?_, ?_, ?_⟩
  · intro vcpu other held
    exact absurd held (nobody vcpu)
  · intro vcpu held
    exact absurd held (nobody vcpu)
  · intro vcpu held
    exact absurd held (nobody vcpu)
  · intro bit
    have reserved : (bootVpids Vcpu).bitmap bit = true ↔ bit = 0 := by
      simp [bootVpids, Function.update_apply]
    simp only [reserved, nobody, false_and, exists_false, or_false]

theorem vpid_run_sound (run : Machine.Reaches (vpidStep nrVpids) (fun _ _ => True) (bootVpids Vcpu)
    state) : VpidsSound nrVpids state :=
  run.invariant (VpidsSound nrVpids) (bootVpids_sound nrVpids)
    (fun _ _ _ sound _ stepped => vpidStep_sound sound stepped)

omit [DecidableEq Vcpu] in
/-- An allocation fails only when every VPID but the host's is held. -/
theorem VpidsSound.exhausted (sound : VpidsSound nrVpids state)
    (failed : (vmxAllocateVpid nrVpids state.bitmap).1 = true) {vpid : Nat} (nonzero : vpid ≠ 0)
    (bound : vpid < nrVpids) : ∃ vcpu, state.Holds vcpu ∧ state.vpid vcpu = vpid := by
  rcases vmxAllocateVpid_cases nrVpids state.bitmap with ⟨_, result, _⟩ | ⟨_, full⟩
  · rw [result] at failed
    exact absurd failed (by simp)
  · rcases (sound.exact vpid).mp (full vpid bound) with zero | held
    · exact absurd zero nonzero
    · exact held

/-- In every run the VPIDs held are distinct and not the host's, the bitmap is exact, and an
allocation fails only when all are held. Where no call is in progress beyond its first
allocations, the holders are the live VCPUs. -/
theorem vpids_unique (run : Machine.Reaches (vpidStep nrVpids) (fun _ _ => True) (bootVpids Vcpu)
    state) :
    (∀ vcpu other, state.Holds vcpu → state.Holds other → state.vpid vcpu = state.vpid other →
      vcpu = other) ∧
    (∀ vcpu, state.Holds vcpu → state.vpid vcpu ≠ 0 ∧ state.vpid vcpu < nrVpids) ∧
    (∀ vcpu, state.life vcpu = .live → state.Holds vcpu) ∧
    (∀ bit, state.bitmap bit = true ↔
      bit = 0 ∨ ∃ vcpu, state.Holds vcpu ∧ state.vpid vcpu = bit) ∧
    ((vmxAllocateVpid nrVpids state.bitmap).1 = true → ∀ vpid, vpid ≠ 0 → vpid < nrVpids →
      ∃ vcpu, state.Holds vcpu ∧ state.vpid vcpu = vpid) ∧
    (state.Settled →
      (∀ bit, state.bitmap bit = true ↔
        bit = 0 ∨ ∃ vcpu, state.life vcpu = .live ∧ state.vpid vcpu = bit) ∧
      ((vmxAllocateVpid nrVpids state.bitmap).1 = true → ∀ vpid, vpid ≠ 0 → vpid < nrVpids →
        ∃ vcpu, state.life vcpu = .live ∧ state.vpid vcpu = vpid)) := by
  have sound := vpid_run_sound run
  have liveHolds : ∀ vcpu, state.life vcpu = .live → state.Holds vcpu := by
    intro vcpu live
    simp [Vpids.Holds, live, VcpuLife.holds]
  refine ⟨sound.distinct, fun vcpu held => ⟨sound.nonzero vcpu held, sound.bounded vcpu held⟩,
    liveHolds, sound.exact, fun failed vpid nonzero bound => sound.exhausted failed nonzero bound, ?_⟩
  intro settled
  have holders : ∀ vcpu, state.Holds vcpu ↔ state.life vcpu = .live :=
    fun vcpu => ⟨settled vcpu, liveHolds vcpu⟩
  refine ⟨fun bit => ?_, fun failed vpid nonzero bound => ?_⟩
  · rw [sound.exact bit]
    simp only [holders]
  · obtain ⟨vcpu, held, same⟩ := sound.exhausted failed nonzero bound
    exact ⟨vcpu, settled vcpu held, same⟩

/-- Two VCPUs created at once have the VPIDs 1 and 2. -/
def twoVcpus : List (VpidAction Nat) :=
  [.allocVcpu 7 true, .allocVcpu 8 true, .allocateVpid 7, .allocateVpid 8, .initEpt 7 true,
    .initEpt 8 true, .createEpt 7 true, .createEpt 8 true]

theorem vpids_unique_two :
    ∃ state, Machine.checkedRun (vpidStep 4) (fun _ _ => true) (bootVpids Nat) twoVcpus =
        some state ∧
      state.vpid 7 = 1 ∧ state.vpid 8 = 2 ∧
      ∀ bit, state.bitmap bit = true ↔
        bit = 0 ∨ ∃ vcpu, state.Holds vcpu ∧ state.vpid vcpu = bit := by
  obtain ⟨state, ran, first, second⟩ : ∃ state, Machine.checkedRun (vpidStep 4) (fun _ _ => true)
      (bootVpids Nat) twoVcpus = some state ∧ state.vpid 7 = 1 ∧ state.vpid 8 = 2 :=
    ⟨_, rfl, rfl, rfl⟩
  have run : Machine.Reaches (vpidStep 4) (fun _ _ => True) (bootVpids Nat) state :=
    Machine.reaches_of_checkedRun (fun _ _ => true) twoVcpus (fun _ _ _ => trivial) ran
  exact ⟨state, ran, first, second, (vpids_unique run).2.2.2.1⟩

end RdmaPaging
