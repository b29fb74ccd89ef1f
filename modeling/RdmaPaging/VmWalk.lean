import RdmaPaging.RadixRoute
import RdmaPaging.VmForest

/-!
What a page walk keeps. A walk from a table of a live tree stays on the tables of that
tree, so a property that every visited 4 KB entry and every new table keeps is kept by
the whole walk.

A pool that is `lost` stays so, and nothing is said about it: it has grown out of the
window, or an allocation has failed.
-/

namespace RdmaPaging

open RadixTree

variable {lost : PagePool → Prop} {kept ended : Vm → Prop} {live : List Tree} {tree : Tree}
variable {cb : PageWalkCb} {create : Create}

theorem walkIndices_bound {level startVa endVa index : Nat}
    (member : index ∈ walkIndices level startVa endVa) : index < nptentries := by
  have last : pdx level endVa < nptentries := Nat.mod_lt _ (by decide)
  simp only [walkIndices, List.mem_range'_1] at member
  omega

theorem bigSlot_none {level : Nat} {pte : Ptent} (small : bigSlot level create pte = false) :
    bigSlot level .none pte = false := by
  simp only [bigSlot, Bool.or_eq_false_iff, Bool.and_eq_false_iff] at small ⊢
  simp only [reduceCtorEq, decide_false, true_and]
  exact ⟨small.1.imp_right And.right, small.2.imp_right And.right⟩

theorem tableOf_present {low : Nat} {pte : Ptent} (small : bigSlot (low + 1) create pte = false)
    (present : ptePresent pte = true) : tableOf low pte = some (pteAddr pte) := by
  simp [tableOf, bigSlot_none small, present]

theorem tableOf_some {low : Nat} {pte : Ptent} {below : PhysAddr} (names : tableOf low pte = some below) :
    bigSlot (low + 1) .none pte = false ∧ ptePresent pte = true ∧ pteAddr pte = below := by
  unfold tableOf at names
  split at names
  · simp at names
  · rename_i slot
    split at names
    · rename_i present
      exact ⟨by simpa using slot, present, Option.some.inj names⟩
    · simp at names

theorem walkLoop_lost {body : Nat → Vm → Option Int × Vm}
    (bodyLost : ∀ index vm, lost vm.pool → lost (body index vm).2.pool) (indices : List Nat)
    (vm : Vm) (already : lost vm.pool) : lost (walkLoop body indices vm).2.pool := by
  induction indices generalizing vm with
  | nil => exact already
  | cons index rest ih =>
      have after := bodyLost index vm already
      simp only [walkLoop]
      split
      · rename_i next stepped
        rw [stepped] at after
        exact ih next after
      · exact after

theorem walkEntry_lost {below : PhysAddr → Nat → Nat → Vm → Option Int × Vm}
    (cbLost : ∀ slot va vm, lost vm.pool → lost (cb slot va vm).2.pool)
    (allocLost : create = .none ∨ ∀ vm, lost vm.pool → lost (allocPage vm).2.pool)
    (belowLost : ∀ dir startVa endVa vm, lost vm.pool → lost (below dir startVa endVa vm).2.pool)
    (level : Nat) (dir : PhysAddr) (startVa endVa index : Nat) (vm : Vm)
    (already : lost vm.pool) :
    lost (walkEntry cb create level below dir startVa endVa index vm).2.pool := by
  unfold walkEntry
  dsimp only
  split
  · exact cbLost _ _ vm already
  · split
    · exact belowLost _ _ _ vm already
    · split
      · exact already
      · rename_i creates
        have after := allocLost.resolve_left creates vm already
        split
        · rename_i page next taken
          rw [taken] at after
          exact belowLost _ _ _ _ after
        · rename_i next refused
          rw [refused] at after
          exact after
        · rename_i next died
          rw [died] at after
          exact after

theorem pageWalk_lost (cbLost : ∀ slot va vm, lost vm.pool → lost (cb slot va vm).2.pool)
    (allocLost : create = .none ∨ ∀ vm, lost vm.pool → lost (allocPage vm).2.pool) (level : Nat)
    (dir : PhysAddr) (startVa endVa : Nat) (vm : Vm) (already : lost vm.pool) :
    lost (pageWalk cb create level dir startVa endVa vm).2.pool := by
  induction level generalizing dir startVa endVa vm with
  | zero =>
      refine walkLoop_lost (fun index vm before => ?_) _ vm already
      unfold walkLeaf
      split
      · exact cbLost _ _ vm before
      · exact before
  | succ level ih =>
      refine walkLoop_lost (fun index vm before => ?_) _ vm already
      exact walkEntry_lost cbLost allocLost ih _ _ _ _ _ vm before

/-- From `vm` to `next` the property is kept and no table of a live tree goes away. -/
def Keeps (lost : PagePool → Prop) (kept : Vm → Prop) (live : List Tree) (vm next : Vm) : Prop :=
  lost next.pool ∨ kept next ∧ Extends live vm.mem next.mem

theorem Keeps.refl {vm : Vm} (holds : kept vm) : Keeps lost kept live vm vm :=
  Or.inr ⟨holds, Extends.refl⟩

theorem Keeps.trans {vm middle next : Vm} (first : Keeps lost kept live vm middle)
    (stays : lost middle.pool → lost next.pool)
    (second : kept middle → Extends live vm.mem middle.mem → Keeps lost kept live middle next) :
    Keeps lost kept live vm next := by
  rcases first with gone | ⟨holds, grows⟩
  · exact Or.inl (stays gone)
  · rcases second holds grows with gone | ⟨later, more⟩
    · exact Or.inl gone
    · exact Or.inr ⟨later, grows.trans more⟩

/-- New tables of a tree keep a property, and a refused one leaves what is `ended`. -/
structure InstallKeeps (lost : PagePool → Prop) (kept ended : Vm → Prop) (live : List Tree)
    (tree : Tree) : Prop where
  allocLost : ∀ vm, lost vm.pool → lost (allocPage vm).2.pool
  refused : ∀ vm, kept vm → (∀ page, (allocPage vm).1 ≠ some (some page)) →
    Keeps lost ended live vm (allocPage vm).2
  install : ∀ vm low dir index page next, kept vm → tree.Table vm.mem (low + 1) dir →
    index < nptentries → ptePresent (vm.mem dir index) = false →
    allocPage vm = (some (some page), next) →
    Keeps lost kept live vm (installTable next ⟨dir, index⟩ page)
  aligned : ∀ vm page next, kept vm → allocPage vm = (some (some page), next) →
    lost next.pool ∨ pteAddr page = page

/-- What a walk needs of its callback and of new tables to keep a property. -/
structure WalkKeeps (lost : PagePool → Prop) (kept : Vm → Prop) (live : List Tree) (tree : Tree)
    (cb : PageWalkCb) (create : Create) : Prop where
  member : tree ∈ live
  cbLost : ∀ slot va vm, lost vm.pool → lost (cb slot va vm).2.pool
  small : ∀ vm, kept vm → ∀ low dir index, tree.Table vm.mem (low + 1) dir → index < nptentries →
    bigSlot (low + 1) create (vm.mem dir index) = false
  leaf : ∀ vm dir index va, kept vm → tree.Table vm.mem 0 dir → index < nptentries →
    create = .normal ∨ vm.mem dir index ≠ 0 → Keeps lost kept live vm (cb ⟨dir, index⟩ va vm).2
  tables : create = .none ∨ InstallKeeps lost kept kept live tree

theorem WalkKeeps.allocLost (rule : WalkKeeps lost kept live tree cb create) :
    create = .none ∨ ∀ vm, lost vm.pool → lost (allocPage vm).2.pool :=
  rule.tables.imp_right InstallKeeps.allocLost

theorem walkLoop_keeps {body : Nat → Vm → Option Int × Vm} {level : Nat} {dir : PhysAddr}
    (member : tree ∈ live)
    (bodyLost : ∀ index vm, lost vm.pool → lost (body index vm).2.pool) (indices : List Nat)
    (bodyKeeps : ∀ index ∈ indices, ∀ vm, kept vm → tree.Table vm.mem level dir →
      Keeps lost kept live vm (body index vm).2)
    (vm : Vm) (holds : kept vm) (table : tree.Table vm.mem level dir) :
    Keeps lost kept live vm (walkLoop body indices vm).2 := by
  induction indices generalizing vm with
  | nil => exact Keeps.refl holds
  | cons index rest ih =>
      have first := bodyKeeps index (by simp) vm holds table
      simp only [walkLoop]
      split
      · rename_i next stepped
        rw [stepped] at first
        refine first.trans (walkLoop_lost bodyLost rest next) fun later grows => ?_
        exact ih (fun index inRest => bodyKeeps index (by simp [inRest])) next later
          (grows.table member table)
      · exact first

theorem WalkKeeps.walkEntry (rule : WalkKeeps lost kept live tree cb create)
    {below : PhysAddr → Nat → Nat → Vm → Option Int × Vm} {level : Nat}
    (belowLost : ∀ dir startVa endVa vm, lost vm.pool → lost (below dir startVa endVa vm).2.pool)
    (belowKeeps : ∀ dir startVa endVa vm, kept vm → tree.Table vm.mem level dir →
      Keeps lost kept live vm (below dir startVa endVa vm).2)
    {dir : PhysAddr} {startVa endVa index : Nat} (bound : index < nptentries) (vm : Vm)
    (holds : kept vm) (table : tree.Table vm.mem (level + 1) dir) :
    Keeps lost kept live vm
      (RdmaPaging.walkEntry cb create (level + 1) below dir startVa endVa index vm).2 := by
  have small := rule.small vm holds level dir index table bound
  unfold RdmaPaging.walkEntry
  dsimp only
  rw [if_neg (by simp [small])]
  split
  · rename_i present
    apply belowKeeps _ _ _ vm holds
    exact Within.step table bound (tableOf_present small present)
  · rename_i absent
    split
    · exact Keeps.refl holds
    · rename_i creates
      have tablesKeep := rule.tables.resolve_left creates
      have refused := tablesKeep.refused vm holds
      split
      · rename_i page next taken
        have installs := tablesKeep.install vm level dir index page next holds table bound
          (by simpa using absent) taken
        refine installs.trans (belowLost _ _ _ _) fun later grows => ?_
        apply belowKeeps _ _ _ _ later
        apply Within.step (grows.table rule.member table) bound
        simp [installTable_mem, installed, setWord]
      · rename_i next refusal
        rw [refusal] at refused
        exact refused (by simp)
      · rename_i next died
        rw [died] at refused
        exact refused (by simp)

/-- The rule of page walks. -/
theorem WalkKeeps.pageWalk (rule : WalkKeeps lost kept live tree cb create) (level : Nat)
    (dir : PhysAddr) (startVa endVa : Nat) (vm : Vm) (holds : kept vm)
    (table : tree.Table vm.mem level dir) :
    Keeps lost kept live vm (RdmaPaging.pageWalk cb create level dir startVa endVa vm).2 := by
  induction level generalizing dir startVa endVa vm with
  | zero =>
      refine walkLoop_keeps rule.member (fun index vm before => ?_) _ (fun index member vm now inside => ?_)
        vm holds table
      · unfold walkLeaf
        split
        · exact rule.cbLost _ _ vm before
        · exact before
      · unfold walkLeaf
        split
        · rename_i visited
          exact rule.leaf vm dir index _ now inside (walkIndices_bound member) visited
        · exact Keeps.refl now
  | succ level ih =>
      have belowLost := fun dir startVa endVa vm already =>
        pageWalk_lost rule.cbLost rule.allocLost level dir startVa endVa vm already
      refine walkLoop_keeps rule.member (fun index vm before => ?_) _ (fun index member vm now inside => ?_)
        vm holds table
      · exact walkEntry_lost rule.cbLost rule.allocLost belowLost _ _ _ _ _ vm before
      · exact rule.walkEntry belowLost ih (walkIndices_bound member) vm now inside

/-! Lookup. -/

/-- The table of level 0 that the pointers of a root lead to for `va`. -/
def leafTable (mem : PhysAddr → Nat → Ptent) (root : PhysAddr) (va : Nat) : Option PhysAddr :=
  reach tableOf mem (fun level => pdx level va) 3 root

theorem pdx_bound (level va : Nat) : pdx level va < nptentries := Nat.mod_lt _ (by decide)

theorem lookupThrough_lost {go : PhysAddr → Vm → Option (Option PteRef) × Vm}
    (allocLost : ∀ vm, lost vm.pool → lost (allocPage vm).2.pool)
    (goLost : ∀ table vm, lost vm.pool → lost (go table vm).2.pool) (slot : PteRef) (vm : Vm)
    (already : lost vm.pool) : lost (lookupThrough create slot go vm).2.pool := by
  have first : lost (lookupTable create slot vm).2.pool := by
    unfold lookupTable
    split
    · exact already
    · split
      · exact already
      · have after := allocLost vm already
        split
        all_goals
          rename_i taken
          rw [taken] at after
          exact after
  unfold lookupThrough
  split
  all_goals
    rename_i found
    rw [found] at first
  · exact goLost _ _ first
  · exact first
  · exact first

theorem vmLookup_lost (allocLost : ∀ vm, lost vm.pool → lost (allocPage vm).2.pool)
    (root : PhysAddr) (va : Nat) (vm : Vm) (already : lost vm.pool) :
    lost (vmLookup root va create vm).2.pool := by
  refine lookupThrough_lost allocLost (fun pdpte vm gone => ?_) _ vm already
  split
  · exact gone
  · refine lookupThrough_lost allocLost (fun pde vm gone => ?_) _ vm gone
    split
    · exact gone
    · exact lookupThrough_lost allocLost (fun _ _ gone => gone) _ vm gone

/-- What a lookup may come to: a lost pool, the end of the process, or a kept state in
which the wanted entry is found. -/
def LookupKeeps (lost : PagePool → Prop) (kept ended : Vm → Prop) (live : List Tree) (vm : Vm)
    (result : Option (Option PteRef) × Vm) (found : PteRef → Vm → Prop) : Prop :=
  lost result.2.pool ∨ result.1 = none ∧ Keeps lost ended live vm result.2 ∨
    ∃ slot next, result = (some (some slot), next) ∧ kept next ∧ Extends live vm.mem next.mem ∧
      found slot next

/-- One level of lookup in a tree without big entries. -/
theorem InstallKeeps.lookupThrough (rule : InstallKeeps lost kept ended live tree)
    {go : PhysAddr → Vm → Option (Option PteRef) × Vm} {found : PteRef → Vm → Prop}
    (goLost : ∀ table vm, lost vm.pool → lost (go table vm).2.pool)
    {vm : Vm} {low index : Nat} {dir : PhysAddr} (holds : kept vm)
    (table : tree.Table vm.mem (low + 1) dir) (bound : index < nptentries)
    (small : bigSlot (low + 1) .none (vm.mem dir index) = false) (creates : create ≠ .none)
    (goKeeps : ∀ below next, kept next → Extends live vm.mem next.mem →
      tableOf low (next.mem dir index) = some below →
      LookupKeeps lost kept ended live next (go below next) found) :
    LookupKeeps lost kept ended live vm (lookupThrough create ⟨dir, index⟩ go vm) found := by
  have refused := rule.refused vm holds
  have onward : ∀ below next, kept next → Extends live vm.mem next.mem →
      tableOf low (next.mem dir index) = some below →
      LookupKeeps lost kept ended live vm (go below next) found := by
    intro below next later grows points
    rcases goKeeps below next later grows points with gone | ⟨died, keeps⟩ |
      ⟨slot, final, result, last, more, isFound⟩
    · exact Or.inl gone
    · refine Or.inr (Or.inl ⟨died, ?_⟩)
      rcases keeps with gone | ⟨end_, more⟩
      · exact Or.inl gone
      · exact Or.inr ⟨end_, grows.trans more⟩
    · exact Or.inr (Or.inr ⟨slot, final, result, last, grows.trans more, isFound⟩)
  unfold RdmaPaging.lookupThrough lookupTable
  by_cases present : ptePresent (vm.mem dir index) = true
  · rw [if_pos present]
    exact onward _ vm holds Extends.refl (tableOf_present small present)
  · rw [if_neg present, if_neg creates]
    split
    · rename_i below next outcome
      split at outcome
      · rename_i page taken allocated
        simp only [Prod.mk.injEq, Option.some.injEq] at outcome
        obtain ⟨rfl, rfl⟩ := outcome
        rcases rule.install vm low dir index page taken holds table bound (by simpa using present)
          allocated with gone | ⟨later, grows⟩
        · exact Or.inl (goLost _ _ gone)
        · rcases rule.aligned vm page taken holds allocated with gone | aligned
          · exact Or.inl (goLost _ _ gone)
          · refine onward page _ later grows ?_
            rw [installTable_mem, installed, setWord, if_pos ⟨rfl, rfl⟩, tableOf_table, aligned]
      · simp at outcome
      · simp at outcome
    · rename_i next outcome
      split at outcome <;> simp at outcome
    · rename_i next outcome
      split at outcome
      · simp at outcome
      · rename_i refusal
        rw [refusal] at refused
        simp only [Prod.mk.injEq, true_and] at outcome
        exact Or.inr (Or.inl ⟨rfl, outcome ▸ refused (by simp)⟩)
      · rename_i died
        rw [died] at refused
        simp only [Prod.mk.injEq, true_and] at outcome
        exact Or.inr (Or.inl ⟨rfl, outcome ▸ refused (by simp)⟩)

theorem presentBig_small {level : Nat} {pte : Ptent} (middle : level = 1 ∨ level = 2)
    (small : bigSlot level .none pte = false) : presentBig pte = false := by
  rcases middle with rfl | rfl <;> simp_all [bigSlot, presentBig]

/-- Lookup with creation in a tree without big entries finds the 4 KB entry of `va`. -/
theorem InstallKeeps.vmLookup (rule : InstallKeeps lost kept ended live tree) (member : tree ∈ live)
    (top : tree.level = 3) (creates : create ≠ .none)
    (small : ∀ vm, kept vm → ∀ low dir index, tree.Table vm.mem (low + 1) dir →
      index < nptentries → bigSlot (low + 1) .none (vm.mem dir index) = false)
    {vm : Vm} (holds : kept vm) (va : Nat) :
    LookupKeeps lost kept ended live vm (vmLookup tree.root va create vm) fun slot next =>
      leafTable next.mem tree.root va = some slot.dir ∧ slot.index = pdx 0 va := by
  have rootTable : ∀ vm : Vm, tree.Table vm.mem 3 tree.root := by
    intro vm
    rw [Tree.Table, top]
    exact Within.here 3 tree.root
  refine rule.lookupThrough (fun pdpte vm gone => ?_) holds (rootTable vm) (pdx_bound 3 va)
    (small vm holds 2 _ _ (rootTable vm) (pdx_bound 3 va)) creates
    fun pdpte second secondKept _ pdpteAt => ?_
  · split
    · exact gone
    · refine lookupThrough_lost rule.allocLost (fun pde vm gone => ?_) _ vm gone
      split
      · exact gone
      · exact lookupThrough_lost rule.allocLost (fun _ _ gone => gone) _ vm gone
  have pdpteTable : tree.Table second.mem 2 pdpte :=
    Within.step (rootTable second) (pdx_bound 3 va) pdpteAt
  have pdpteSmall := small second secondKept 1 _ _ pdpteTable (pdx_bound 2 va)
  rw [if_neg (by simp [presentBig_small (Or.inr rfl) pdpteSmall])]
  refine rule.lookupThrough (fun pde vm gone => ?_) secondKept pdpteTable (pdx_bound 2 va)
    pdpteSmall creates fun pde third thirdKept thirdGrows pdeAt => ?_
  · split
    · exact gone
    · exact lookupThrough_lost rule.allocLost (fun _ _ gone => gone) _ vm gone
  have pdpteLater := thirdGrows tree member 2 _ _ _ (rootTable second) (pdx_bound 3 va) pdpteAt
  have pdeTable : tree.Table third.mem 1 pde :=
    Within.step (thirdGrows.table member pdpteTable) (pdx_bound 2 va) pdeAt
  have pdeSmall := small third thirdKept 0 _ _ pdeTable (pdx_bound 1 va)
  rw [if_neg (by simp [presentBig_small (Or.inl rfl) pdeSmall])]
  refine rule.lookupThrough (fun _ _ gone => gone) thirdKept pdeTable (pdx_bound 1 va)
    pdeSmall creates fun pte fourth fourthKept fourthGrows pteAt => ?_
  have pdpteLast := fourthGrows tree member 2 _ _ _ (rootTable third) (pdx_bound 3 va) pdpteLater
  have pdeLast := fourthGrows tree member 1 _ _ _ (thirdGrows.table member pdpteTable)
    (pdx_bound 2 va) pdeAt
  refine Or.inr (Or.inr ⟨_, fourth, rfl, fourthKept, Extends.refl, ?_, rfl⟩)
  simp only [leafTable, reach, pdpteLast, pdeLast, pteAt]

/-- Lookup where the tables are there already. -/
theorem vmLookup_found {root leaf : PhysAddr} {va : Nat} {vm : Vm}
    (leads : leafTable vm.mem root va = some leaf) :
    vmLookup root va create vm = (some (some ⟨leaf, pdx 0 va⟩), vm) := by
  have through : ∀ {low index : Nat} {dir below : PhysAddr}
      (go : PhysAddr → Vm → Option (Option PteRef) × Vm), tableOf low (vm.mem dir index) = some below →
      lookupThrough create ⟨dir, index⟩ go vm = go below vm := by
    intro low index dir below go names
    obtain ⟨_, present, isTable⟩ := tableOf_some names
    simp only [lookupThrough, lookupTable, present, if_true, isTable]
  simp only [leafTable, reach] at leads
  split at leads
  · rename_i pdpte pdpteAt
    split at leads
    · rename_i pde pdeAt
      split at leads
      · rename_i pte pteAt
        obtain rfl : pte = leaf := Option.some.inj leads
        have pdpteSmall := presentBig_small (Or.inr rfl) (tableOf_some pdeAt).1
        have pdeSmall := presentBig_small (Or.inl rfl) (tableOf_some pteAt).1
        rw [vmLookup, through _ pdpteAt, if_neg (by simp [pdpteSmall]), through _ pdeAt,
          if_neg (by simp [pdeSmall]), through _ pteAt]
      · simp at leads
    · simp at leads
  · simp at leads

theorem leafTable_table {mem : PhysAddr → Nat → Ptent} {va : Nat} {leaf : PhysAddr}
    (top : tree.level = 3) (leads : leafTable mem tree.root va = some leaf) :
    tree.Table mem 0 leaf := by
  rw [Tree.Table, top]
  exact reach_within (fun level => pdx_bound level va) leads

end RdmaPaging
