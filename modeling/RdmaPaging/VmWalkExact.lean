import RdmaPaging.VmLeaves
import RdmaPaging.VmPageTable

/-!
The walker of `vm.c`, for its callers: which entries of a tree it calls the function on, in what
order, and for which addresses. Addresses count by their low 48 bits.
-/

namespace RdmaPaging

open RadixTree

variable {σ : Type*}

/-- An entry of the tree at a root that a walk has to report: a 4 KB entry that is not zero, or an
entry of level 1 or 2 with the size bit. `base` is where its extent starts. -/
structure EntryAt (mem : PhysAddr → Nat → Ptent) (root : PhysAddr) (slot : PteRef) (low base : Nat) :
    Prop where
  inside : base < 2 ^ 48
  aligned : base % entrySpan low = 0
  table : tableAt tableOf mem (fun step => pdx step base) low 3 root = some slot.dir
  index : slot.index = pdx low base
  word : low = 0 ∧ mem slot.dir slot.index ≠ 0 ∨
    (low = 1 ∨ low = 2) ∧ pteBig (mem slot.dir slot.index) = true

/-- The extent from `base` on reaches the range: it starts no later than the range ends, and ends
after the range starts. -/
def ExtentMeets (low base startVa endVa : Nat) : Prop :=
  base ≤ endVa % 2 ^ 48 ∧ startVa % 2 ^ 48 < base + entrySpan low

section Entries

variable {mem : PhysAddr → Nat → Ptent} {root : PhysAddr} {slot : PteRef}
variable {startVa endVa va low offset base : Nat}

theorem visitedWord_iff (low : Nat) (pte : Ptent) : visitedWord low pte = true ↔
    low = 0 ∧ pte ≠ 0 ∨ (low = 1 ∨ low = 2) ∧ pteBig pte = true := by
  unfold visitedWord bigSlot
  split
  · rename_i lowest
    simp [lowest]
  · rename_i higher
    simp [higher]
    tauto

/-- Between the entries of the first and the last address are the extents that meet the range. -/
theorem extentMeets_iff (aligned : base % entrySpan low = 0) :
    startVa % 2 ^ 48 / entrySpan low ≤ base / entrySpan low ∧
        base / entrySpan low ≤ endVa % 2 ^ 48 / entrySpan low ↔
      ExtentMeets low base startVa endVa := by
  have pos := entrySpan_pos low
  obtain ⟨number, rfl⟩ := Nat.dvd_of_mod_eq_zero aligned
  rw [Nat.mul_div_cancel_left _ pos, ExtentMeets, Nat.div_le_iff_le_mul_add_pred pos, Nat.le_div_iff_mul_le pos,
    Nat.mul_comm number]
  omega

theorem VisitAt.entryAt (visit : VisitAt mem 3 root startVa endVa slot va low offset) :
    ∃ base, EntryAt mem root slot low base ∧ ExtentMeets low base startVa endVa ∧
      va = startVa / 2 ^ 48 * 2 ^ 48 + base := by
  have span : entrySpan (3 + 1) = 2 ^ 48 := rfl
  have lowBound := tableAt_le visit.table
  have inside := visit.inside
  have first := visit.first
  have last := visit.last
  have address := visit.address
  rw [span] at inside first last
  rw [blockStart, span] at address
  have pos := entrySpan_pos low
  have aligned : offset / entrySpan low * entrySpan low % entrySpan low = 0 := Nat.mul_mod_left _ _
  have number : offset / entrySpan low * entrySpan low / entrySpan low = offset / entrySpan low :=
    Nat.mul_div_cancel _ pos
  have floor := Nat.div_mul_le_self offset (entrySpan low)
  have route : ∀ step, low ≤ step → step ≤ 3 →
      pdx step (offset / entrySpan low * entrySpan low) = pdx step offset := by
    intro step above bound
    apply pdx_number above bound
    rw [Nat.mod_eq_of_lt inside, Nat.mod_eq_of_lt (by omega), number]
  refine ⟨offset / entrySpan low * entrySpan low, ⟨by omega, aligned, ?_, ?_, ?_⟩, ?_, address⟩
  · rw [← visit.table]
    exact tableAt_route lowBound fun step above bound => route step (Nat.le_of_lt above) bound
  · rw [visit.index, route low (Nat.le_refl _) lowBound]
  · exact (visitedWord_iff _ _).mp visit.word
  · rw [← extentMeets_iff aligned, number]
    exact ⟨first, last⟩

theorem EntryAt.visitAt (entry : EntryAt mem root slot low base) (meets : ExtentMeets low base startVa endVa) :
    VisitAt mem 3 root startVa endVa slot (startVa / 2 ^ 48 * 2 ^ 48 + base) low base := by
  obtain ⟨first, last⟩ := (extentMeets_iff entry.aligned).mpr meets
  refine ⟨entry.inside, entry.table, entry.index, (visitedWord_iff _ _).mpr entry.word, first, last, ?_⟩
  rw [Nat.div_mul_cancel (Nat.dvd_of_mod_eq_zero entry.aligned)]
  rfl

theorem mem_visits_entries (visit : Visit) : visit ∈ visits mem 3 root startVa endVa ↔
    ∃ low base, EntryAt mem root visit.1 low base ∧ ExtentMeets low base startVa endVa ∧
      visit.2 = startVa / 2 ^ 48 * 2 ^ 48 + base := by
  obtain ⟨slot, va⟩ := visit
  rw [mem_visits_iff (by decide)]
  constructor
  · rintro ⟨low, offset, visit⟩
    exact ⟨low, visit.entryAt⟩
  · rintro ⟨low, base, entry, meets, rfl⟩
    exact ⟨low, base, entry.visitAt meets⟩

/-- The entry decides for every address of its extent. -/
theorem EntryAt.leafOf (entry : EntryAt mem root slot low base) (first : base ≤ va)
    (last : va < base + entrySpan low) : leafOf mem root va = (low, mem slot.dir slot.index) := by
  have pos := entrySpan_pos low
  have lowBound := tableAt_le entry.table
  obtain ⟨number, place⟩ := Nat.dvd_of_mod_eq_zero entry.aligned
  obtain ⟨times, whole⟩ := entrySpan_dvd (show low ≤ 3 + 1 by omega)
  have top : entrySpan (3 + 1) = 2 ^ 48 := rfl
  -- an aligned extent that starts below 2^48 ends there at the latest
  have fits : va < 2 ^ 48 := by
    have inside := entry.inside
    rw [← top, whole, place] at inside
    rw [← top, whole]
    have next := Nat.mul_le_mul_left (entrySpan low) (Nat.lt_of_mul_lt_mul_left inside)
    rw [Nat.mul_succ, ← place] at next
    omega
  have number_ : va / entrySpan low = base / entrySpan low := by
    rw [place, Nat.mul_div_cancel_left _ pos, Nat.div_eq_iff pos, Nat.mul_comm number]
    omega
  have route : ∀ step, low ≤ step → step ≤ 3 → pdx step va = pdx step base := by
    intro step above bound
    apply pdx_number above bound
    rw [Nat.mod_eq_of_lt fits, Nat.mod_eq_of_lt entry.inside, number_]
  have table : tableAt tableOf mem (fun step => pdx step va) low 3 root = some slot.dir := by
    rw [← entry.table]
    exact tableAt_route lowBound fun step above bound => route step (Nat.le_of_lt above) bound
  rw [RdmaPaging.leafOf, leafAt_of_tableAt table, leafAt_eq, route low (Nat.le_refl _) lowBound,
    ← entry.index]
  cases low with
  | zero => rfl
  | succ low =>
      have big := entry.word.resolve_left fun lowest => Nat.succ_ne_zero low lowest.1
      have ends : tableOf low (mem slot.dir slot.index) = none := by
        unfold tableOf bigSlot
        rcases big with ⟨one | two, big⟩
        · simp [one, big]
        · simp [two, big]
      rw [leafFrom, ends]

/-- Extents of different entries have no address in common. -/
theorem EntryAt.unique {other : PteRef} {high start : Nat} (entry : EntryAt mem root slot low base)
    (second : EntryAt mem root other high start) (first : base ≤ va) (last : va < base + entrySpan low)
    (secondFirst : start ≤ va) (secondLast : va < start + entrySpan high) : base = start := by
  have same := (entry.leafOf first last).symm.trans (second.leafOf secondFirst secondLast)
  obtain rfl : low = high := congrArg Prod.fst same
  have pos := entrySpan_pos low
  obtain ⟨number, rfl⟩ := Nat.dvd_of_mod_eq_zero entry.aligned
  obtain ⟨position, rfl⟩ := Nat.dvd_of_mod_eq_zero second.aligned
  have here : va / entrySpan low = number := by
    rw [Nat.div_eq_iff pos, Nat.mul_comm number]
    omega
  have there : va / entrySpan low = position := by
    rw [Nat.div_eq_iff pos, Nat.mul_comm position]
    omega
  rw [← here, there]

/-- A range that ends before it starts has the one extent that both its addresses lie in. -/
theorem visits_backward (backward : endVa % 2 ^ 48 < startVa % 2 ^ 48) :
    (visits mem 3 root startVa endVa).length ≤ 1 := by
  have sorted : (visits mem 3 root startVa endVa).Pairwise _ := visits_sorted (by decide) root startVa endVa
  have members := fun visit (member : visit ∈ visits mem 3 root startVa endVa) =>
    (mem_visits_entries visit).mp member
  match list : visits mem 3 root startVa endVa with
  | [] => simp
  | [visit] => simp
  | one :: two :: rest =>
      rw [list] at sorted members
      obtain ⟨low, base, entry, ⟨starts, ends⟩, address⟩ := members one (by simp)
      obtain ⟨high, start, second, ⟨secondStarts, secondEnds⟩, secondAddress⟩ := members two (by simp)
      have same := entry.unique second starts (by omega) secondStarts (by omega)
      have less := (List.pairwise_cons.mp sorted).1 two (by simp)
      omega

end Entries

/-! Calls in turn. -/

section Calls

variable {cb : WalkCb σ} {list before after : List Visit} {state middle : σ} {visit : Visit}

/-- A function that always returns zero is called for every entry of a list. -/
theorem visitAll_zero (zero : ∀ slot va state, (cb slot va state).1 = some 0) (list : List Visit)
    (state : σ) :
    visitAll cb list state =
      (some 0, list.foldl (fun state visit => (cb visit.1 visit.2 state).2) state) := by
  induction list generalizing state with
  | nil => rfl
  | cons visit rest ih =>
      obtain ⟨slot, va⟩ := visit
      have called : cb slot va state = (some 0, (cb slot va state).2) := Prod.ext (zero slot va state) rfl
      rw [visitAll, called, goOn_zero, ih]
      rfl

/-- The first result that is not zero ends the calls. -/
theorem visitAll_stops (zeros : visitAll cb before state = (some 0, middle))
    (stops : (cb visit.1 visit.2 middle).1 ≠ some 0) :
    visitAll cb (before ++ visit :: after) state = cb visit.1 visit.2 middle := by
  rw [visitAll_append, zeros, goOn_zero, visitAll, goOn_stop stops]

end Calls

/-- `list` are the calls that a walk makes, unless one of them stops it. -/
structure WalksExactly (root : PhysAddr) (startVa endVa : Nat) (cb : PageWalkCb) (vm : Vm)
    (list : List Visit) : Prop where
  increasing : list.Pairwise fun first second => first.2 < second.2
  once : (list.map Prod.fst).Nodup
  backward : endVa % 2 ^ 48 < startVa % 2 ^ 48 → list.length ≤ 1
  exact_ : ∀ visit, visit ∈ list ↔
    ∃ low base, EntryAt vm.mem root visit.1 low base ∧ ExtentMeets low base startVa endVa ∧
      visit.2 = startVa / 2 ^ 48 * 2 ^ 48 + base
  all : (∀ slot va vm, (cb slot va vm).1 = some 0) →
    pageWalk cb .none 3 root startVa endVa vm =
      (some 0, list.foldl (fun vm visit => (cb visit.1 visit.2 vm).2) vm)
  stops : ∀ before visit after middle, list = before ++ visit :: after →
    visitAll cb before vm = (some 0, middle) → (cb visit.1 visit.2 middle).1 ≠ some 0 →
      pageWalk cb .none 3 root startVa endVa vm = cb visit.1 visit.2 middle

/-- A walk without creation calls a function that changes its own entry only once for each entry
whose extent meets the range, in the order of the addresses, until a result is not zero. -/
theorem page_walk_exact (cb : PageWalkCb) (root : PhysAddr) (vm : Vm) (own : StoresOwn Vm.mem cb)
    (distinct : Distinct vm.mem 3 root) (startVa endVa : Nat) :
    WalksExactly root startVa endVa cb vm (visits vm.mem 3 root startVa endVa) := by
  have walk : pageWalk cb .none 3 root startVa endVa vm =
      visitAll cb (visits vm.mem 3 root startVa endVa) vm := by
    rw [pageWalk_eq]
    exact pageWalkOf_visits own (by decide) vm distinct
  refine ⟨visits_sorted (by decide) root startVa endVa, visits_nodup (by decide) distinct startVa endVa,
    visits_backward, fun visit => mem_visits_entries visit, ?_, ?_⟩
  · intro zero
    rw [walk, visitAll_zero zero]
  · intro before visit after middle split zeros notZero
    rw [walk, split]
    exact visitAll_stops zeros notZero

/-- Stop at the first call. -/
def stopsAtOnce : PageWalkCb := fun _ _ vm => (some 7, vm)

theorem stopsAtOnce_own : StoresOwn Vm.mem stopsAtOnce := fun _ _ _ _ _ _ => rfl

theorem page_walk_exact_mapped :
    WalksExactly 0x1000#64 0 4095 stopsAtOnce mappedVm (visits mappedVm.mem 3 0x1000#64 0 4095) ∧
      (visits mappedVm.mem 3 0x1000#64 0 4095).map Prod.snd = [0] :=
  ⟨page_walk_exact stopsAtOnce 0x1000#64 mappedVm stopsAtOnce_own mappedVm_built.distinct 0 4095,
    by decide +kernel⟩

/-- From the second byte of a page to its first the walk still has the page's entry. -/
theorem page_walk_backward : StoresOwn Vm.mem stopsAtOnce ∧ Distinct mappedVm.mem 3 0x1000#64 ∧
    0 % 2 ^ 48 < 1 % 2 ^ 48 ∧ (pageWalk stopsAtOnce .none 3 0x1000#64 1 0 mappedVm).1 = some 7 :=
  ⟨stopsAtOnce_own, mappedVm_built.distinct, by decide, by decide +kernel⟩

end RdmaPaging
