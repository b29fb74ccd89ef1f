import RdmaPaging.SthreadAsserts
import RdmaPaging.VmWalkExact

/-!
What `has_mem_perm` says about the bytes of a range. Its walk reports the entries that it finds, and
nothing for addresses that have none.
-/

namespace RdmaPaging

open RadixTree

/-- `has_mem_perm` on the tables in memory, with the `st_walk` that it leaves. -/
def hasMemPermIn (layout : DuneLayout) (root : PhysAddr) (ptr len : Nat) (vm : Vm) : Bool × Nat :=
  let walked := pageWalkOf (fun state : Nat × Vm => state.2.mem) (walkCheckPerm layout).inMemory 3 root ptr
    ((ptr + len) % 2 ^ 64) (0, vm)
  (walked.1 = some 0, walked.2.1)

/-- On a root without big pages it is the function of the machine. -/
theorem hasMemPermIn_table {root : PhysAddr} {vm : Vm} (plain : Forest entryTable vm.mem [treeOf root])
    (w : Wedge) (s : Sthread PageTable) (same : s.pgroot = pageTable vm.mem root) (ptr len : Nat) :
    hasMemPermIn w.layout root ptr len vm = hasMemPerm w s ptr len := by
  have walked := pageWalkOf_table (walkCheckPerm w.layout) 0 plain ptr ((ptr + len) % 2 ^ 64)
  simp only [hasMemPermIn, hasMemPerm, walked.result, walked.own, same, Option.some.injEq]

/-! Walks that store nothing. -/

section Reads

variable {σ : Type} {view : σ → PhysAddr → Nat → Ptent} {cb : WalkCb σ}
variable {mem : PhysAddr → Nat → Ptent}

theorem walkLoopOf_reads (reads : ∀ slot va state, view (cb slot va state).2 = view state)
    {body : Nat → σ → Option Int × σ} {lists : Nat → List Visit}
    (each : ∀ index state, view state = mem → body index state = visitAll cb (lists index) state)
    (indices : List Nat) (state : σ) (same : view state = mem) :
    walkLoopOf body indices state = visitAll cb (indices.flatMap lists) state := by
  induction indices generalizing state with
  | nil => rfl
  | cons index rest ih =>
      have kept : view (visitAll cb (lists index) state).2 = mem :=
        visitAll_keeps (fun state => view state = mem)
          (fun slot va state same => (reads slot va state).trans same) _ state same
      rw [walkLoopOf, each index state same, List.flatMap_cons, visitAll_append]
      generalize visitAll cb (lists index) state = outcome at kept ⊢
      obtain ⟨result, next⟩ := outcome
      by_cases zero : result = some 0
      · rw [zero, goOn_zero, goOn_zero, ih next kept]
      · rw [goOn_stop zero, goOn_stop zero]

/-- A walk whose function stores nothing goes over its list of entries in any tables. -/
theorem pageWalkOf_reads (reads : ∀ slot va state, view (cb slot va state).2 = view state) (level : Nat)
    (dir : PhysAddr) (startVa endVa : Nat) (state : σ) :
    pageWalkOf view cb level dir startVa endVa state =
      visitAll cb (visits (view state) level dir startVa endVa) state := by
  induction level generalizing dir startVa endVa state with
  | zero =>
      rw [pageWalkOf, visits]
      refine walkLoopOf_reads reads ?_ _ state rfl
      intro index now same
      rw [same]
      split
      · rw [visitAll_single]
      · rfl
  | succ level ih =>
      rw [pageWalkOf, visits]
      refine walkLoopOf_reads reads ?_ _ state rfl
      intro index now same
      rw [same, turnVisits]
      split
      · rw [visitAll_single]
      · split
        · rw [ih, same]
        · rfl

end Reads

/-! The check. -/

section Check

variable {layout : DuneLayout} {root : PhysAddr} {ptr len : Nat} {vm : Vm}

theorem setPte_same (vm : Vm) (slot : PteRef) : vm.setPte slot (vm.mem slot.dir slot.index) = vm := by
  have same : setWord vm.mem slot.dir slot.index (vm.mem slot.dir slot.index) = vm.mem := by
    funext dir index
    unfold setWord
    split
    · rename_i here
      rw [here.1, here.2]
    · rfl
  exact congrArg (fun mem => { vm with mem := mem }) same

theorem checkPerm_entry (layout : DuneLayout) (slot : PteRef) (va walk : Nat) (vm : Vm) :
    ((walkCheckPerm layout).inMemory slot va (walk, vm)).1 =
      (if grantsWrite (vm.mem slot.dir slot.index) = true then some 0 else some 1) ∧
    ((walkCheckPerm layout).inMemory slot va (walk, vm)).2.2 = vm := by
  rw [EntryCb.inMemory, walkCheckPerm_eq]
  split <;> exact ⟨rfl, setPte_same vm slot⟩

theorem checkPerm_list (layout : DuneLayout) (list : List Visit) (walk : Nat) (vm : Vm) :
    (visitAll (walkCheckPerm layout).inMemory list (walk, vm)).1 = some 0 ↔
      ∀ visit ∈ list, grantsWrite (vm.mem visit.1.dir visit.1.index) = true := by
  induction list generalizing walk with
  | nil => simp [visitAll]
  | cons visit rest ih =>
      obtain ⟨slot, va⟩ := visit
      obtain ⟨result, same⟩ := checkPerm_entry layout slot va walk vm
      rw [visitAll, List.forall_mem_cons]
      generalize (walkCheckPerm layout).inMemory slot va (walk, vm) = outcome at result same ⊢
      obtain ⟨returned, next, after_⟩ := outcome
      obtain rfl : after_ = vm := same
      obtain rfl : returned = _ := result
      by_cases grants : grantsWrite (after_.mem slot.dir slot.index) = true
      · rw [if_pos grants, goOn_zero, ih]
        simp [grants]
      · rw [if_neg grants, goOn_stop (by simp)]
        simp [grants]

/-- The entries that the walk over the range reports. -/
def Reported (mem : PhysAddr → Nat → Ptent) (root : PhysAddr) (ptr len : Nat) (slot : PteRef)
    (low base : Nat) : Prop :=
  EntryAt mem root slot low base ∧ ExtentMeets low base ptr ((ptr + len) % 2 ^ 64)

theorem hasMemPermIn_iff : (hasMemPermIn layout root ptr len vm).1 = true ↔
    ∀ slot low base, Reported vm.mem root ptr len slot low base →
      grantsWrite (vm.mem slot.dir slot.index) = true := by
  have reads : ∀ slot va (state : Nat × Vm),
      ((walkCheckPerm layout).inMemory slot va state).2.2.mem = state.2.mem :=
    fun slot va state => congrArg Vm.mem (checkPerm_entry layout slot va state.1 state.2).2
  have walked := @pageWalkOf_reads (Nat × Vm) (fun state => state.2.mem) _ reads 3 root ptr
    ((ptr + len) % 2 ^ 64) (0, vm)
  simp only [hasMemPermIn, walked, decide_eq_true_eq, checkPerm_list]
  constructor
  · rintro all slot low base ⟨entry, meets⟩
    exact all (slot, _) ((mem_visits_entries _).mpr ⟨low, base, entry, meets, rfl⟩)
  · intro all visit member
    obtain ⟨low, base, entry, meets, _⟩ := (mem_visits_entries visit).mp member
    exact all visit.1 low base ⟨entry, meets⟩

end Check

/-! Leaf entries and reported ones. -/

section Leaves

variable {mem : PhysAddr → Nat → Ptent} {root : PhysAddr} {va : Nat}

/-- A leaf entry that is present is an entry that a walk reports. -/
theorem leafOf_entry (present : (leafOf mem root va).2.has pteP = true) : ∃ slot low base,
    EntryAt mem root slot low base ∧ base ≤ va % 2 ^ 48 ∧ va % 2 ^ 48 < base + entrySpan low ∧
      mem slot.dir slot.index = (leafOf mem root va).2 := by
  rw [← leafOf_canonical] at present ⊢
  have inside := Nat.mod_lt va (show 0 < 2 ^ 48 by decide)
  generalize va % 2 ^ 48 = va at present inside ⊢
  obtain ⟨table, leads, word, bound, ends⟩ :=
    @leafAt_table _ _ tableOf mem (fun step => pdx step va) 3 root
  rw [← leafOf] at leads word bound ends
  generalize leafOf mem root va = leaf at present leads word bound ends ⊢
  obtain ⟨low, pte⟩ := leaf
  have bound : low ≤ 3 := bound
  have pos := entrySpan_pos low
  have floor := Nat.div_mul_le_self va (entrySpan low)
  have next := Nat.lt_div_mul_add (a := va) pos
  have route : ∀ step, low ≤ step → step ≤ 3 →
      pdx step (va / entrySpan low * entrySpan low) = pdx step va := by
    intro step above below
    apply pdx_number above below
    rw [Nat.mod_eq_of_lt (by omega), Nat.mod_eq_of_lt inside, Nat.mul_div_cancel _ pos]
  refine ⟨⟨table, pdx low va⟩, low, va / entrySpan low * entrySpan low,
    ⟨by omega, Nat.mul_mod_left _ _, ?_, ?_, ?_⟩, floor, next, word.symm⟩
  · rw [← leads]
    exact tableAt_route bound fun step above below => route step (Nat.le_of_lt above) below
  · exact (route low (Nat.le_refl _) bound).symm
  · rw [← word]
    cases low with
    | zero => exact Or.inl ⟨rfl, present_nonzero present⟩
    | succ low =>
        -- a present word of a higher level ends the route only as a big page
        have big : bigSlot (low + 1) .none pte = true := by
          by_contra small
          have ended := ends low rfl
          rw [tableOf, if_neg small, if_pos ((ptePresent_has pte).trans present)] at ended
          exact absurd ended (by simp)
        exact ((visitedWord_iff (low + 1) pte).mp big).imp id id

end Leaves

/-! What is claimed. -/

/-- The check passes only ranges whose bytes all have a leaf entry that is present, user-accessible
and writable. -/
def CheckSound (layout : DuneLayout) (root : PhysAddr) (ptr len : Nat) (vm : Vm) : Prop :=
  (hasMemPermIn layout root ptr len vm).1 = true →
    ∀ va, ptr ≤ va → va < ptr + len → grantsWrite (leafOf vm.mem root va).2 = true

/-- The walk reports an entry that is refused, or each byte of the range lies in the extent of an
entry that it reports or that grants the access itself. -/
def NoHole (mem : PhysAddr → Nat → Ptent) (root : PhysAddr) (ptr len : Nat) : Prop :=
  (∃ slot low base, Reported mem root ptr len slot low base ∧
    grantsWrite (mem slot.dir slot.index) = false) ∨
  ∀ va, ptr ≤ va → va < ptr + len → ∃ slot low base, EntryAt mem root slot low base ∧
    base ≤ va % 2 ^ 48 ∧ va % 2 ^ 48 < base + entrySpan low ∧
    (ExtentMeets low base ptr ((ptr + len) % 2 ^ 64) ∨ grantsWrite (mem slot.dir slot.index) = true)

/-- The check is sound exactly where no address of the range is without an entry, or another entry
of it is refused. -/
theorem has_mem_perm_sound_iff (layout : DuneLayout) (root : PhysAddr) (ptr len : Nat) (vm : Vm) :
    CheckSound layout root ptr len vm ↔ NoHole vm.mem root ptr len := by
  constructor
  · intro sound
    by_cases passes : (hasMemPermIn layout root ptr len vm).1 = true
    · right
      intro va first last
      have grants := sound passes va first last
      obtain ⟨slot, low, base, entry, starts, ends, word⟩ := leafOf_entry (grantsWrite_present grants)
      exact ⟨slot, low, base, entry, starts, ends, Or.inr (word ▸ grants)⟩
    · left
      rw [hasMemPermIn_iff] at passes
      simp only [not_forall] at passes
      obtain ⟨slot, low, base, reported, refused⟩ := passes
      exact ⟨slot, low, base, reported, by simpa using refused⟩
  · rintro (⟨slot, low, base, reported, refused⟩ | covered) passes va first last
    · rw [hasMemPermIn_iff] at passes
      exact absurd (passes slot low base reported) (by simp [refused])
    · obtain ⟨slot, low, base, entry, starts, ends, granted⟩ := covered va first last
      have leaf := entry.leafOf starts ends
      rw [leafOf_canonical] at leaf
      rw [leaf]
      rcases granted with meets | grants
      · exact hasMemPermIn_iff.mp passes slot low base ⟨entry, meets⟩
      · exact grants

/-- In a range that crosses no multiple of 2^48 every entry of a byte is reported. -/
theorem noHole_block {mem : PhysAddr → Nat → Ptent} {root : PhysAddr} {ptr len : Nat}
    (block : ptr / 2 ^ 48 = (ptr + len) / 2 ^ 48) (noWrap : ptr + len < 2 ^ 64) :
    NoHole mem root ptr len ↔
      (∃ slot low base, Reported mem root ptr len slot low base ∧
        grantsWrite (mem slot.dir slot.index) = false) ∨
      ∀ va, ptr ≤ va → va < ptr + len → ∃ slot low base, EntryAt mem root slot low base ∧
        base ≤ va % 2 ^ 48 ∧ va % 2 ^ 48 < base + entrySpan low := by
  refine or_congr_right (forall_congr' fun va => forall_congr' fun first => forall_congr' fun last => ?_)
  refine exists_congr fun slot => exists_congr fun low => exists_congr fun base => ?_
  constructor
  · rintro ⟨entry, starts, ends, _⟩
    exact ⟨entry, starts, ends⟩
  · rintro ⟨entry, starts, ends⟩
    refine ⟨entry, starts, ends, Or.inl ?_⟩
    rw [Nat.mod_eq_of_lt noWrap]
    constructor <;> omega

/-- An sthread of a process with one page of code. -/
def codeSthread : Option (Sthread PhysAddr) × Vm :=
  createNewSthread smallLayout [codeSegment] 0x1000#64 1 0x20000 0x30000 scInit mappedVm

/-- An address that the sthread has no entry for passes. -/
theorem has_mem_perm_hole : ∃ s after, codeSthread = (some s, after) ∧
    ¬ CheckSound smallLayout s.pgroot 0x601000 1 after := by
  have passes : codeSthread.1.map (fun s => ((hasMemPermIn smallLayout s.pgroot 0x601000 1 codeSthread.2).1,
      grantsWrite (leafOf codeSthread.2.mem s.pgroot 0x601000).2)) = some (true, false) := by
    decide +kernel
  generalize codeSthread = outcome at passes ⊢
  obtain ⟨created, after⟩ := outcome
  obtain ⟨s, rfl, both⟩ := Option.map_eq_some_iff.mp passes
  obtain ⟨accepts, refused⟩ := Prod.ext_iff.mp both
  refine ⟨s, after, rfl, fun sound => ?_⟩
  have granted := sound accepts 0x601000 (Nat.le_refl _) (Nat.lt_succ_self _)
  exact absurd (granted.symm.trans refused) (by decide)

end RdmaPaging
