import RdmaPaging.VmMapUnmap

/-!
`dune_vm_unmap` of a range whose entries, of any size, map no page of the pool. No page is put, so
the walk only clears: afterwards nothing of the range is mapped and the pool is as before.
-/

namespace RdmaPaging

open RadixTree

variable {root dir : PhysAddr} {va len low offset position there : Nat} {before vm : Vm}

/-- The entries of the range map no page of the pool. -/
def Foreign (root : PhysAddr) (va len : Nat) (vm : Vm) : Prop :=
  ∀ address, va ≤ address → address < va + len →
    pageIsFromPool vm.pool (pteAddr (leafOf vm.mem root address).2) = false

/-- The entries of the range below `position` are cleared. -/
structure ClearKept (root : PhysAddr) (va len : Nat) (pool : PagePool) (position : Nat) (vm : Vm) :
    Prop where
  grounded : Grounded entryBuilt [treeOf root] vm
  samePool : vm.pool = pool
  cleared : ∀ address, va ≤ address → address < va + len → address < position →
    (leafOf vm.mem root address).2 = 0
  foreign : ∀ address, va ≤ address → address < va + len → position ≤ address →
    (leafOf vm.mem root address).2 = 0 ∨
      pageIsFromPool pool (pteAddr (leafOf vm.mem root address).2) = false

/-- The addresses of the range are those that the walk comes to. -/
theorem walked_of_mem (canonical : va + len ≤ 2 ^ 48) {address : Nat} (above : va ≤ address)
    (below : address < va + len) : Walked va len address := by
  have span : entrySpan (3 + 1) = 2 ^ 48 := rfl
  rw [Walked, Between, span, lastVa_mod (by omega), Nat.mod_eq_of_lt (by omega), Nat.mod_eq_of_lt (by omega)]
  exact ⟨Nat.div_le_div_right above, Nat.div_le_div_right (by omega)⟩

theorem ClearKept.extend (kept : ClearKept root va len before.pool position vm) (order : position ≤ there)
    (blank : ∀ address, va ≤ address → address < va + len → position ≤ address → address < there →
      (leafOf vm.mem root address).2 = 0) : ClearKept root va len before.pool there vm := by
  refine ⟨kept.grounded, kept.samePool, fun address above below done => ?_,
    fun address above below left => kept.foreign address above below (Nat.le_trans order left)⟩
  by_cases early : address < position
  · exact kept.cleared address above below early
  · exact blank address above below (Nat.not_lt.mp early) done

/-- A call of `__dune_vm_free_helper` for a page that is not of the pool. -/
theorem ClearKept.free (canonical : va + len ≤ 2 ^ 48) (positive : 0 < len)
    (kept : ClearKept root va len before.pool offset vm) (inside : offset < 2 ^ 48)
    (leads : tableFor vm.mem root low offset = some dir) (between : Between 3 low va (lastVa va len) offset)
    (aligned : entrySpan low ∣ offset) (visited : visitsWord .none low (vm.mem dir (pdx low offset)) = true)
    (at_ : Nat) :
    Advances (fun _ => False) (ClearKept root va len before.pool) root low vm
      (freeHelper ⟨dir, pdx low offset⟩ at_ vm) (offset + entrySpan low) := by
  have isLeaf : low = 0 ∨ bigSlot low .none (vm.mem dir (pdx low offset)) = true := by
    cases low with
    | zero => exact Or.inl rfl
    | succ low => exact Or.inr (by simpa [visitsWord] using visited)
  have here := leafOf_here leads isLeaf
  have nonzero : vm.mem dir (pdx low offset) ≠ 0 := by
    rcases isLeaf with rfl | slot
    · simpa [visitsWord] using visited
    · cases low with
      | zero => simp [bigSlot] at slot
      | succ low => exact bigSlot_ne_zero slot
  -- the entry maps an address of the range, so its page is not of the pool
  have foreign : pageIsFromPool vm.pool (pteAddr (vm.mem dir (pdx low offset))) = false := by
    obtain ⟨address, above, below, same⟩ := between.meets positive
    rw [Nat.mod_eq_of_lt (by omega)] at same
    have shared : leafOf vm.mem root address = leafOf vm.mem root offset :=
      leafOf_shared (by rw [here]) same inside (by omega)
    have left : offset ≤ address := by
      have first := (Nat.div_mul_cancel aligned).symm
      rw [← same] at first
      exact first.trans_le (Nat.div_mul_le_self _ _)
    have apart := kept.foreign address above below left
    rw [shared, here] at apart
    rw [kept.samePool]
    exact apart.resolve_left nonzero
  have stored : ∀ other < 2 ^ 48, leafOf (setWord vm.mem dir (pdx low offset) 0) root other =
      if other / entrySpan low = offset / entrySpan low then (low, 0) else leafOf vm.mem root other :=
    fun other otherInside =>
      kept.grounded.store_leaf leads inside otherInside fun lower _ => tableOf_zero lower
  have table := tableFor_table leads
  intro _
  unfold freeHelper
  dsimp only
  rw [foreign, if_neg (by simp)]
  refine Or.inr ⟨kept.grounded.store_pointers table _ _, ?_, kept.samePool, ?_, ?_⟩
  · exact kept.grounded.storeLeaf table (pdx_bound _ _) (fun lower _ => tableOf_zero lower)
      (fun _ _ => entryBuilt_zero low) kept.grounded.list kept.grounded.fresh
  · intro address above below done
    change (leafOf (setWord _ _ _ _) _ _).2 = _
    rw [stored address (by omega)]
    split
    · rfl
    · rename_i apart
      refine kept.cleared address above below ?_
      by_contra late
      exact apart (same_entry aligned (Nat.not_lt.mp late) done)
  · intro address above below left
    change (leafOf (setWord _ _ _ _) _ _).2 = _ ∨
      pageIsFromPool _ (pteAddr (leafOf (setWord _ _ _ _) _ _).2) = _
    rw [stored address (by omega)]
    split
    · exact Or.inl rfl
    · exact kept.foreign address above below (by omega)

theorem clear_rule (canonical : va + len ≤ 2 ^ 48) (positive : 0 < len) :
    OrderRule (fun _ => False) (ClearKept root va len before.pool) root va (lastVa va len)
      freeHelper .none where
  plain := Or.inl rfl
  cbLost := fun _ _ _ gone => gone
  allocLost := Or.inl rfl
  jump := fun _ _ _ _ _ _ kept gap => kept.extend gap.order fun address above below low high =>
    absurd (walked_of_mem canonical above below) (gap.empty 0 (Nat.zero_le _) address low high)
  visit := fun _ _ _ _ kept inside leads between aligned visited =>
    kept.free canonical positive inside leads between aligned visited _
  skip := by
    intro _ vm low dir offset kept inside leads _ aligned passed ends
    refine kept.extend (Nat.le_add_right _ _) fun address above below low' high => ?_
    have same := same_entry aligned low' high
    cases low with
    | zero =>
        have zero : vm.mem dir (pdx 0 offset) = 0 := by simpa [visitsWord] using passed
        rw [leafOf_shared (Nat.zero_le _) same inside (by omega), leafOf_here leads (Or.inl rfl), zero]
    | succ low =>
        have small : bigSlot (low + 1) .none (vm.mem dir (pdx (low + 1) offset)) = false := by
          simpa [visitsWord] using passed
        have absent : ptePresent (vm.mem dir (pdx (low + 1) offset)) = false := by
          by_contra present
          have names := ends low rfl
          simp [tableOf, small, present] at names
        rw [leafOf_end leads same inside (by omega) (ends low rfl)]
        exact kept.grounded.newTable_empty leads absent small
  install := Or.inl rfl

/-- `dune_vm_unmap` leaves nothing of the range mapped. -/
theorem vmUnmap_unmaps (canonical : va + len ≤ 2 ^ 48) (positive : 0 < len)
    (grounded : Grounded entryBuilt [treeOf root] before) (inWindow : before.pool.numPages ≤ maxPages)
    (foreign : Foreign root va len before) :
    ∃ after, vmUnmap root va len before = (some (), after) ∧
      Grounded entryBuilt [treeOf root] after ∧ after.pool = before.pool ∧
      Unmapped after.mem root va len := by
  have start : ClearKept root va len before.pool 0 before := ⟨grounded, rfl,
    fun _ _ _ early => absurd early (Nat.not_lt_zero _),
    fun address above below _ => Or.inr (foreign address above below)⟩
  have returns := (pageWalk_returns freeHelper_returns 3 root va (lastVa va len) before inWindow).1
  have walked := (clear_rule canonical positive).pageWalk 3 root va (lastVa va len) 0 before start
    (orderedWalk_top before.mem root va (lastVa va len)) returns
  have whole : 0 + entrySpan (3 + 1) = 2 ^ 48 := Nat.zero_add _
  rw [whole] at walked
  have cleared := (walked.resolve_left id).2
  refine ⟨(pageWalk freeHelper .none 3 root va (lastVa va len) before).2, ?_, cleared.grounded,
    cleared.samePool, fun address above below => cleared.cleared address above below (by omega)⟩
  unfold vmUnmap
  generalize pageWalk freeHelper .none 3 root va (lastVa va len) before = outcome at returns ⊢
  obtain ⟨result, after⟩ := outcome
  obtain rfl : result = some 0 := returns
  rfl

end RdmaPaging
