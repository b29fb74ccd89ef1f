import RdmaPaging.VmLeaves

/-!
`dune_vm_lookup` beside `__dune_vm_page_walk` for one address. Both come to the leaf entry of the
address. They differ at an entry for a big page that is not present, and when the page pool
cannot supply a table that is missing.
-/

namespace RdmaPaging

open RadixTree

variable {mem : PhysAddr → Nat → Ptent} {root dir : PhysAddr} {vm : Vm} {va : Nat}

/-- `dune_vm_lookup` from a table of a level on. -/
@[grind =] def lookupFrom (va : Nat) (create : Create) :
    Nat → PhysAddr → Vm → Option (Option PteRef) × Vm
  | 0, dir, vm => (some (some ⟨dir, pdx 0 va⟩), vm)
  | level + 1, dir, vm =>
      if level ≤ 1 ∧ presentBig (vm.mem dir (pdx (level + 1) va)) then
        (some (some ⟨dir, pdx (level + 1) va⟩), vm)
      else lookupThrough create ⟨dir, pdx (level + 1) va⟩ (lookupFrom va create level) vm

theorem vmLookup_from (root : PhysAddr) (va : Nat) (create : Create) :
    vmLookup root va create = lookupFrom va create 3 root := by
  funext vm
  simp only [vmLookup, lookupFrom, Nat.le_refl, Nat.zero_le, true_and, Nat.reduceLeDiff, false_and,
    if_false]

/-- The entry at which the tables for an address end. -/
def leafSlot (mem : PhysAddr → Nat → Ptent) (va : Nat) : Nat → PhysAddr → PteRef
  | 0, dir => ⟨dir, pdx 0 va⟩
  | level + 1, dir =>
      match tableOf level (mem dir (pdx (level + 1) va)) with
      | some below => leafSlot mem va level below
      | none => ⟨dir, pdx (level + 1) va⟩

/-- The leaf for an address from a table of a level on. -/
def leafFor (mem : PhysAddr → Nat → Ptent) (va level : Nat) (dir : PhysAddr) : Nat × Ptent :=
  leafAt tableOf mem (fun step => pdx step va) level dir

section Leaf

variable {level : Nat} {below : PhysAddr}

theorem leafFor_down (names : tableOf level (mem dir (pdx (level + 1) va)) = some below) :
    leafFor mem va (level + 1) dir = leafFor mem va level below ∧
      leafSlot mem va (level + 1) dir = leafSlot mem va level below := by
  simp only [leafFor, leafAt, leafSlot, names, and_self]

theorem leafFor_stop (names : tableOf level (mem dir (pdx (level + 1) va)) = none) :
    leafFor mem va (level + 1) dir = (level + 1, mem dir (pdx (level + 1) va)) ∧
      leafSlot mem va (level + 1) dir = ⟨dir, pdx (level + 1) va⟩ := by
  simp only [leafFor, leafAt, leafSlot, names, and_self]

end Leaf

theorem walkIndices_one (level va : Nat) : walkIndices level va va = [pdx level va] := by
  simp [walkIndices]

theorem walkLoop_one (body : Nat → Vm → Option Int × Vm) (index : Nat) (vm : Vm) :
    walkLoop body [index] vm = body index vm := by
  simp only [walkLoop]
  split
  · rename_i stepped
    exact stepped.symm
  · rfl

theorem pageWalk_zero (cb : PageWalkCb) (create : Create) :
    pageWalk cb create 0 dir va va vm = walkLeaf cb create dir va (pdx 0 va) vm := by
  rw [pageWalk, walkIndices_one, walkLoop_one]

theorem pageWalk_succ (cb : PageWalkCb) (create : Create) (level : Nat) :
    pageWalk cb create (level + 1) dir va va vm =
      if bigSlot (level + 1) create (vm.mem dir (pdx (level + 1) va)) then
        cb ⟨dir, pdx (level + 1) va⟩ (curVa (level + 1) va (pdx (level + 1) va)) vm
      else if ptePresent (vm.mem dir (pdx (level + 1) va)) then
        pageWalk cb create level (pteAddr (vm.mem dir (pdx (level + 1) va))) va va vm
      else if create = .none then (some 0, vm)
      else
        match allocPage vm with
        | (some (some page), next) =>
            pageWalk cb create level (pteAddr ((installTable next ⟨dir, pdx (level + 1) va⟩ page).mem dir
              (pdx (level + 1) va))) va va (installTable next ⟨dir, pdx (level + 1) va⟩ page)
        | (some none, next) => (some (-enomem), next)
        | (none, next) => (none, next) := by
  rw [pageWalk, walkIndices_one, walkLoop_one, walkEntry]
  simp only [if_true] <;> rfl

/-- The cases of an entry of a higher level. -/
theorem entry_cases (level : Nat) (pte : Ptent) :
    (bigSlot (level + 1) .none pte = true ∧ tableOf level pte = none ∧ level ≤ 1 ∧ pteBig pte = true) ∨
    (bigSlot (level + 1) .none pte = false ∧ ptePresent pte = true ∧ tableOf level pte = some (pteAddr pte) ∧
      ¬ (level ≤ 1 ∧ presentBig pte = true)) ∨
    (bigSlot (level + 1) .none pte = false ∧ ptePresent pte = false ∧ tableOf level pte = none) := by
  by_cases slot : bigSlot (level + 1) .none pte = true
  · refine Or.inl ⟨slot, by rw [tableOf, if_pos slot], ?_⟩
    simp only [bigSlot, Bool.or_eq_true, Bool.and_eq_true, decide_eq_true_eq, reduceCtorEq, false_or] at slot
    rcases slot with ⟨one, big⟩ | ⟨two, big⟩
    · exact ⟨by omega, big⟩
    · exact ⟨by omega, big⟩
  · have small : bigSlot (level + 1) .none pte = false := by simpa using slot
    by_cases present : ptePresent pte = true
    · refine Or.inr (Or.inl ⟨small, present, tableOf_present small present, ?_⟩)
      rintro ⟨low, isBig⟩
      have big : pteBig pte = true := by simpa [presentBig, present] using isBig
      apply slot
      rcases (show level = 0 ∨ level = 1 by omega) with rfl | rfl <;> simp [bigSlot, big]
    · have absent : ptePresent pte = false := by simpa using present
      exact Or.inr (Or.inr ⟨small, absent, by simp [tableOf, absent]⟩)

/-! Without creation. -/

/-- The pool can give so many pages. -/
def supplies : Nat → PagePool → Bool
  | 0, _ => true
  | count + 1, pool =>
      match pageAlloc pool with
      | (some (some _), next) => supplies count next
      | _ => false

/-- The tables that are missing below a leaf. -/
def missingTables (leaf : Nat × Ptent) : Nat := if bigSlot leaf.1 .none leaf.2 then 0 else leaf.1

/-- An entry for a big page that is not present. -/
def Hidden (leaf : Nat × Ptent) : Prop := bigSlot leaf.1 .none leaf.2 = true ∧ ptePresent leaf.2 = false

theorem lookupFrom_outgrown (level : Nat) (dir : PhysAddr) (vm : Vm) (already : outgrown maxPages vm.pool) :
    outgrown maxPages (lookupFrom va .normal level dir vm).2.pool := by
  induction level generalizing dir vm with
  | zero => exact already
  | succ level ih =>
      rw [lookupFrom]
      split
      · exact already
      · exact lookupThrough_lost allocPage_outgrown ih _ vm already

/-- What the two make of an address when all that is needed is there, and what the lookup does
when it is not. -/
def Creates (root : PhysAddr) (va level : Nat) (dir : PhysAddr) (vm : Vm) (supplied : Bool) : Prop :=
  if supplied then
    ∃ slot at_ next, lookupFrom va .normal level dir vm = (some (some slot), next) ∧
      (∀ cb, pageWalk cb .normal level dir va va vm = cb slot at_ next) ∧
      ∀ other, SameLeaf (leafOf next.mem root other) (leafOf vm.mem root other)
  else (lookupFrom va .normal level dir vm).1 = none

/-- The lookup at a missing table: it goes on from a new one, or there is no page and the process
ends. -/
theorem lookup_installs {level : Nat} (grounded : Grounded entryBuilt [treeOf root] vm)
    (leads : tableFor vm.mem root (level + 1) va = some dir)
    (absent : ptePresent (vm.mem dir (pdx (level + 1) va)) = false)
    (bounded : ¬ outgrown maxPages (lookupFrom va .normal (level + 1) dir vm).2.pool) :
    (∃ page pool, allocPage vm = (some (some (pageToPa page)), { vm with pool := pool }) ∧
      Taken vm.pool page pool ∧ pool.numPages ≤ maxPages ∧
      supplies (level + 1) vm.pool = supplies level pool ∧
      lookupFrom va .normal (level + 1) dir vm = lookupFrom va .normal level (pageToPa page)
        (installTable { vm with pool := pool } ⟨dir, pdx (level + 1) va⟩ (pageToPa page)) ∧
      tableFor (installed vm.mem dir (pdx (level + 1) va) (pageToPa page)) root level va =
        some (pageToPa page) ∧
      leafFor (installed vm.mem dir (pdx (level + 1) va) (pageToPa page)) va level (pageToPa page) =
        (level, 0)) ∨
    supplies (level + 1) vm.pool = false ∧ (lookupFrom va .normal (level + 1) dir vm).1 = none := by
  have notBig : ¬ (level ≤ 1 ∧ presentBig (vm.mem dir (pdx (level + 1) va)) = true) := by
    simp [presentBig, absent]
  rcases pageAlloc_spec grounded.list with ⟨page, result, taken⟩ | refused
  · left
    have pair : pageAlloc vm.pool = (some (some page), (pageAlloc vm.pool).2) := Prod.ext result rfl
    have takes : allocPage vm = (some (some (pageToPa page)), { vm with pool := (pageAlloc vm.pool).2 }) := by
      rw [allocPage, pair]
    generalize (pageAlloc vm.pool).2 = pool at pair takes taken
    have looks : lookupFrom va .normal (level + 1) dir vm = lookupFrom va .normal level (pageToPa page)
        (installTable { vm with pool := pool } ⟨dir, pdx (level + 1) va⟩ (pageToPa page)) := by
      rw [lookupFrom, if_neg notBig, lookupThrough, lookupTable, absent, takes]
      rfl
    rw [looks] at bounded
    have poolBound : pool.numPages ≤ maxPages := by
      by_contra large
      have already : outgrown maxPages pool := Nat.lt_of_not_le large
      exact bounded (lookupFrom_outgrown level _ _ already)
    have names : tableOf level (installed vm.mem dir (pdx (level + 1) va) (pageToPa page) dir
        (pdx (level + 1) va)) = some (pageToPa page) := by
      rw [installed, setWord, if_pos ⟨rfl, rfl⟩, tableOf_table, taken.aligned poolBound]
    have pointers := grounded.newTable_pointers taken poolBound leads absent
    have apart : dir ≠ pageToPa page :=
      (tableFor_table leads).ne_of_copies (by simp) (grounded.unused taken poolBound)
    refine ⟨page, pool, takes, taken, poolBound, by rw [supplies, pair], looks,
      tableAt_step (pointers.tableFor (Nat.zero_le _) leads) names, ?_⟩
    -- all words of the new table are zero, so it lacks every table below
    cases level with
    | zero => rw [leafFor, leafAt, installed_page apart]
    | succ level =>
        rw [(leafFor_stop (by rw [installed_page apart]; exact tableOf_zero _)).1, installed_page apart]
  · right
    have dies : allocPage vm = (some none, { vm with pool := { vm.pool with failed := true } }) := by
      rw [allocPage, refused]
    refine ⟨by rw [supplies, refused], ?_⟩
    rw [lookupFrom, if_neg notBig, lookupThrough, lookupTable, absent, dies]
    rfl

/-- A missing table is allocated by both. -/
theorem create_absent {level : Nat} (grounded : Grounded entryBuilt [treeOf root] vm)
    (leads : tableFor vm.mem root (level + 1) va = some dir)
    (small : bigSlot (level + 1) .none (vm.mem dir (pdx (level + 1) va)) = false)
    (absent : ptePresent (vm.mem dir (pdx (level + 1) va)) = false)
    (bounded : ¬ outgrown maxPages (lookupFrom va .normal (level + 1) dir vm).2.pool)
    (below : ∀ dir vm, Grounded entryBuilt [treeOf root] vm → tableFor vm.mem root level va = some dir →
      ¬ Hidden (leafFor vm.mem va level dir) →
      ¬ outgrown maxPages (lookupFrom va .normal level dir vm).2.pool →
      Creates root va level dir vm (supplies (missingTables (leafFor vm.mem va level dir)) vm.pool)) :
    Creates root va (level + 1) dir vm (supplies (level + 1) vm.pool) := by
  rcases lookup_installs grounded leads absent bounded with
    ⟨page, pool, takes, taken, poolBound, count, looks, leadsDown, leaf⟩ | ⟨short, dies⟩
  · rw [looks] at bounded
    have entry : pteAddr ((installTable { vm with pool := pool } ⟨dir, pdx (level + 1) va⟩
        (pageToPa page)).mem dir (pdx (level + 1) va)) = pageToPa page := by
      rw [installTable_mem, installed, setWord, if_pos ⟨rfl, rfl⟩, pteAddr_table, taken.aligned poolBound]
    have walks : ∀ cb, pageWalk cb .normal (level + 1) dir va va vm = pageWalk cb .normal level (pageToPa page)
        va va (installTable { vm with pool := pool } ⟨dir, pdx (level + 1) va⟩ (pageToPa page)) := by
      intro cb
      rw [pageWalk_succ, bigSlot_normal, small, absent, takes]
      simp only [Bool.false_eq_true, if_false, reduceCtorEq, entry]
    have shown : ¬ Hidden (leafFor (installed vm.mem dir (pdx (level + 1) va) (pageToPa page)) va level
        (pageToPa page)) := by
      rw [leaf]
      rintro ⟨slot, _⟩
      exact absurd ((bigSlot_zero level).symm.trans slot) (by simp)
    have missing : missingTables (level, 0) = level := if_neg (by simp [bigSlot_zero])
    have further := below (pageToPa page) _ (grounded.newTable taken poolBound leads absent) leadsDown shown
      bounded
    rw [installTable_mem, leaf, missing] at further
    change Creates root va level (pageToPa page) _ (supplies level pool) at further
    unfold Creates at further ⊢
    rw [count]
    simp only [looks, walks]
    split
    · rename_i supplied
      rw [if_pos supplied] at further
      obtain ⟨slot, at_, next, found, called, same⟩ := further
      refine ⟨slot, at_, next, found, called, fun other => (same other).trans ?_⟩
      exact grounded.newTable_leaf taken poolBound leads absent small other
    · rename_i short
      rw [if_neg short] at further
      exact further
  · rw [Creates, short, if_neg (by simp)]
    exact dies

theorem create_agrees (level : Nat) (dir : PhysAddr) (vm : Vm) (grounded : Grounded entryBuilt [treeOf root] vm)
    (leads : tableFor vm.mem root level va = some dir) (shown : ¬ Hidden (leafFor vm.mem va level dir))
    (bounded : ¬ outgrown maxPages (lookupFrom va .normal level dir vm).2.pool) :
    Creates root va level dir vm (supplies (missingTables (leafFor vm.mem va level dir)) vm.pool) := by
  induction level generalizing dir vm with
  | zero =>
      refine ⟨⟨dir, pdx 0 va⟩, curVa 0 va (pdx 0 va), vm, rfl, fun cb => ?_, fun _ => Or.inl rfl⟩
      rw [pageWalk_zero, walkLeaf, if_pos (Or.inl rfl)]
  | succ level ih =>
      rcases entry_cases level (vm.mem dir (pdx (level + 1) va)) with
        ⟨slot, stops, low, big⟩ | ⟨small, present, names, notBig⟩ | ⟨small, absent, stops⟩
      · rw [(leafFor_stop stops).1] at shown ⊢
        have present : ptePresent (vm.mem dir (pdx (level + 1) va)) = true := by
          by_contra absent
          exact shown ⟨slot, by simpa using absent⟩
        rw [missingTables, if_pos slot]
        refine ⟨⟨dir, pdx (level + 1) va⟩, curVa (level + 1) va (pdx (level + 1) va), vm, ?_, fun cb => ?_,
          fun _ => Or.inl rfl⟩
        · rw [lookupFrom, if_pos ⟨low, by simp [presentBig, present, big]⟩]
        · rw [pageWalk_succ, if_pos (by rw [bigSlot_normal]; exact slot)]
      · have looks : lookupFrom va .normal (level + 1) dir vm =
            lookupFrom va .normal level (pteAddr (vm.mem dir (pdx (level + 1) va))) vm := by
          rw [lookupFrom, if_neg notBig, lookupThrough, lookupTable, if_pos present]
        have walks : ∀ cb, pageWalk cb .normal (level + 1) dir va va vm =
            pageWalk cb .normal level (pteAddr (vm.mem dir (pdx (level + 1) va))) va va vm := by
          intro cb
          rw [pageWalk_succ, bigSlot_normal, small, if_neg (by simp), if_pos present]
        rw [(leafFor_down names).1] at shown ⊢
        rw [looks] at bounded
        have further := ih _ vm grounded (tableAt_step leads names) shown bounded
        unfold Creates at further ⊢
        simp only [looks, walks]
        exact further
      · rw [(leafFor_stop stops).1, missingTables, if_neg (by simp [small])]
        exact create_absent grounded leads small absent bounded ih

/-- The lookup with creation comes to the 4 KB entry of an address that no present big page maps,
exactly when the pool has the tables below its leaf. -/
theorem lookup_creates (level : Nat) (dir : PhysAddr) (vm : Vm) (grounded : Grounded entryBuilt [treeOf root] vm)
    (leads : tableFor vm.mem root level va = some dir)
    (notBig : (leafFor vm.mem va level dir).1 = 0 ∨ ptePresent (leafFor vm.mem va level dir).2 = false)
    (bounded : ¬ outgrown maxPages (lookupFrom va .normal level dir vm).2.pool) :
    if supplies (leafFor vm.mem va level dir).1 vm.pool then
      ∃ table next, lookupFrom va .normal level dir vm = (some (some ⟨table, pdx 0 va⟩), next) ∧
        Grounded entryBuilt [treeOf root] next ∧ tableFor next.mem root 0 va = some table
    else (lookupFrom va .normal level dir vm).1 = none := by
  induction level generalizing dir vm with
  | zero => exact ⟨dir, vm, rfl, grounded, leads⟩
  | succ level ih =>
      have blank : ptePresent 0 = false := by decide
      have missing : ptePresent (vm.mem dir (pdx (level + 1) va)) = false →
          if supplies (level + 1) vm.pool then
            ∃ table next, lookupFrom va .normal (level + 1) dir vm = (some (some ⟨table, pdx 0 va⟩), next) ∧
              Grounded entryBuilt [treeOf root] next ∧ tableFor next.mem root 0 va = some table
          else (lookupFrom va .normal (level + 1) dir vm).1 = none := by
        intro absent
        rcases lookup_installs grounded leads absent bounded with
          ⟨page, pool, _, taken, poolBound, count, looks, leadsDown, leaf⟩ | ⟨short, dies⟩
        · rw [looks] at bounded
          have further := ih (pageToPa page) _ (grounded.newTable taken poolBound leads absent) leadsDown
            (Or.inr (by rw [installTable_mem, leaf]; exact blank)) bounded
          rw [installTable_mem, leaf] at further
          rw [count, looks]
          exact further
        · rw [short, if_neg (by simp)]
          exact dies
      rcases entry_cases level (vm.mem dir (pdx (level + 1) va)) with
        ⟨_, stops, _, _⟩ | ⟨_, present, names, small⟩ | ⟨_, absent, stops⟩
      · rw [(leafFor_stop stops).1] at notBig ⊢
        exact missing (notBig.resolve_left (by simp))
      · rw [(leafFor_down names).1] at notBig ⊢
        have looks : lookupFrom va .normal (level + 1) dir vm =
            lookupFrom va .normal level (pteAddr (vm.mem dir (pdx (level + 1) va))) vm := by
          rw [lookupFrom, if_neg small, lookupThrough, lookupTable, if_pos present]
        rw [looks] at bounded ⊢
        exact ih _ vm grounded (tableAt_step leads names) notBig bounded
      · rw [(leafFor_stop stops).1]
        exact missing absent

/-- A lookup where no big page is in the way comes to a 4 KB entry and changes no mapping. -/
theorem lookup_page {slot : PteRef} {looked : Vm} (grounded : Grounded entryBuilt [treeOf root] vm)
    (notBig : (leafOf vm.mem root va).1 = 0 ∨ (leafOf vm.mem root va).2 = 0)
    (looks : vmLookup root va .normal vm = (some (some slot), looked))
    (bounded : looked.pool.numPages ≤ maxPages) :
    ∃ table, slot = ⟨table, pdx 0 va⟩ ∧ Grounded entryBuilt [treeOf root] looked ∧
      tableFor looked.mem root 0 va = some table ∧
      ∀ other, SameLeaf (leafOf looked.mem root other) (leafOf vm.mem root other) := by
  have absent : ptePresent 0 = false := by decide
  have small : ¬ outgrown maxPages (lookupFrom va .normal 3 root vm).2.pool := by
    rw [← vmLookup_from, looks]
    exact Nat.not_lt.mpr bounded
  have shown : ¬ Hidden (leafOf vm.mem root va) := by
    rintro ⟨isSlot, _⟩
    rcases notBig with bottom | blank
    · rw [bottom] at isSlot
      simp [bigSlot] at isSlot
    · rw [blank] at isSlot
      exact absurd ((bigSlot_zero _).symm.trans isSlot) (by simp)
  have creates := lookup_creates 3 root vm grounded (tableAt_self 3 root)
    (notBig.imp_right fun blank => (congrArg ptePresent blank).trans absent) small
  have agrees := create_agrees 3 root vm grounded (tableAt_self 3 root) shown small
  rw [← vmLookup_from, looks] at creates
  rw [Creates, ← vmLookup_from, looks] at agrees
  split at creates
  · obtain ⟨table, next, found, sound, leads⟩ := creates
    simp only [Prod.mk.injEq, Option.some.injEq] at found
    obtain ⟨rfl, rfl⟩ := found
    split at agrees
    · obtain ⟨_, _, next, result, _, same⟩ := agrees
      obtain rfl := (Prod.mk.inj result).2
      exact ⟨table, rfl, sound, leads, same⟩
    · simp at agrees
  · simp at creates

/-! The agreement. -/

theorem bigSlot_ne_zero {level : Nat} {pte : Ptent} (slot : bigSlot level .none pte = true) : pte ≠ 0 := by
  rintro rfl
  exact absurd ((bigSlot_zero level).symm.trans slot) (by simp)

end RdmaPaging
