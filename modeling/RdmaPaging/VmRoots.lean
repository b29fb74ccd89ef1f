import RdmaPaging.VmAccounting

/-!
Roots as libdune builds them: trees whose upper entries are blank, name a table, or are
big pages, and whose tables no allocation can hand out again.
-/

namespace RdmaPaging

open RadixTree

/-- An entry of an upper table as the walks write it. -/
def entryTable (_ : Nat) (pte : Ptent) : Prop := pte = 0 ∨ pte = pteAddr pte ||| pteDefFlags

/-- An entry of an upper table of a root: as the walks write it, or a big page. -/
def entryBuilt (level : Nat) (pte : Ptent) : Prop :=
  entryTable level pte ∨ (level = 1 ∨ level = 2) ∧ pteBig pte = true

/-- The tables of the live trees are distinct and none of them can be allocated. -/
structure Grounded (entryOk : Nat → Ptent → Prop) (live : List Tree) (vm : Vm) : Prop where
  forest : Forest entryOk vm.mem live
  list : FreeList vm.pool
  fresh : ∀ page < maxPages, page ∈ vm.pool.free ∨ vm.pool.numPages ≤ page →
    copies vm.mem live (pageToPa page) = 0

/-- A root as libdune builds it. -/
def RootBuilt (vm : Vm) (root : PhysAddr) : Prop := Grounded entryBuilt [treeOf root] vm

/-- An allocation failed, or the pool has more pages than `MAX_PAGES`. -/
def exhausted (pool : PagePool) : Prop := pool.failed = true ∨ outgrown maxPages pool

theorem entryTable_zero (level : Nat) : entryTable level 0 := Or.inl rfl

theorem entryTable_table (level : Nat) (page : PhysAddr) :
    entryTable level (pteAddr page ||| pteDefFlags) := by
  right
  rw [pteAddr_table]

theorem entryBuilt_zero (level : Nat) : entryBuilt level 0 := Or.inl (entryTable_zero level)

theorem entryBuilt_table (level : Nat) (page : PhysAddr) :
    entryBuilt level (pteAddr page ||| pteDefFlags) := Or.inl (entryTable_table level page)

theorem entryTable.small {level : Nat} {pte : Ptent} (plain : entryTable level pte) :
    pteBig pte = false := by
  rcases plain with isZero | isTable
  · rw [isZero]
    decide
  · rw [isTable]
    exact pteBig_table _

theorem allocPage_exhausted (vm : Vm) (already : exhausted vm.pool) :
    exhausted (allocPage vm).2.pool := by
  rcases already with failed | large
  · left
    rw [allocPage_pool]
    exact (pageAlloc_grows vm.pool).2 failed
  · exact Or.inr (allocPage_outgrown vm large)

/-- Allocation from a pool with a sound free list takes a page, or the pool is exhausted. -/
theorem allocPage_taken {vm : Vm} (list : FreeList vm.pool) :
    (∃ page pool, allocPage vm = (some (some (pageToPa page)), { vm with pool := pool }) ∧
      Taken vm.pool page pool) ∨
    ∃ pool, allocPage vm = (some none, { vm with pool := pool }) ∧ exhausted pool := by
  rcases pageAlloc_spec list with ⟨page, result, taken⟩ | refused
  · refine Or.inl ⟨page, (pageAlloc vm.pool).2, ?_, taken⟩
    have allocated : pageAlloc vm.pool = (some (some page), (pageAlloc vm.pool).2) :=
      Prod.ext result rfl
    simp only [allocPage]
    rw [allocated]
  · refine Or.inr ⟨{ vm.pool with failed := true }, ?_, Or.inl rfl⟩
    simp only [allocPage]
    rw [refused]

theorem maxPages_small {page : Nat} (bound : page < maxPages) : page < 2 ^ 30 := by
  unfold maxPages at bound
  omega

variable {entryOk : Nat → Ptent → Prop} {live : List Tree} {tree : Tree} {vm : Vm}

/-- A page that can be allocated after an allocation could be before. -/
theorem Taken.still {before after : PagePool} {page other : Nat} (taken : Taken before page after)
    (free : other ∈ after.free ∨ after.numPages ≤ other) :
    other ≠ page ∧ (other ∈ before.free ∨ before.numPages ≤ other) := by
  rcases free with listed | outside
  · exact taken.rest other listed
  · have inPool := taken.inPool
    have grows := taken.grows
    exact ⟨by omega, Or.inr (by omega)⟩

section Taken

variable (grounded : Grounded entryOk live vm) {page : Nat} {pool : PagePool}
variable (taken : Taken vm.pool page pool) (small : pool.numPages ≤ maxPages)

include grounded taken

theorem Grounded.alloc : Grounded entryOk live { vm with pool := pool } :=
  ⟨grounded.forest, taken.list, fun other bound free =>
    grounded.fresh other bound (taken.still free).2⟩

include small

theorem Grounded.unused : copies vm.mem live (pageToPa page) = 0 :=
  grounded.fresh page (Nat.lt_of_lt_of_le taken.inPool small) taken.source

omit grounded in
theorem Taken.aligned : pteAddr (pageToPa page) = pageToPa page :=
  pteAddr_pageToPa (maxPages_small (Nat.lt_of_lt_of_le taken.inPool small))

omit grounded in
theorem Taken.apart {other : Nat} (bound : other < maxPages)
    (free : other ∈ pool.free ∨ pool.numPages ≤ other) : pageToPa page ≠ pageToPa other := by
  intro same
  have pageSmall := maxPages_small (Nat.lt_of_lt_of_le taken.inPool small)
  exact (taken.still free).1 (pageToPa_injective pageSmall (maxPages_small bound) same).symm

/-- A fresh page becomes a table. -/
theorem Grounded.install (okZero : ∀ level, entryOk level 0)
    (okTable : ∀ level page, entryOk level (pteAddr page ||| pteDefFlags)) (member : tree ∈ live)
    {low index : Nat} {dir : PhysAddr} (table : tree.Table vm.mem (low + 1) dir)
    (bound : index < nptentries) (empty : tableOf low (vm.mem dir index) = none) :
    Grounded entryOk live (installTable { vm with pool := pool } ⟨dir, index⟩ (pageToPa page)) := by
  have unused := grounded.unused taken small
  have aligned := taken.aligned small
  refine ⟨grounded.forest.install member table bound empty unused aligned okZero okTable, taken.list,
    fun other otherSmall free => ?_⟩
  have none := grounded.fresh other otherSmall (taken.still free).2
  rw [copies] at none
  rw [installTable_mem, copies, grounded.forest.total_installed member table bound empty unused
    aligned rfl, none, if_neg (taken.apart small otherSmall free)]

/-- A fresh page becomes an empty root. -/
theorem Grounded.plant (okZero : ∀ level, entryOk level 0) (level : Nat) (leaves : Bool) :
    Grounded entryOk (⟨level, pageToPa page, leaves⟩ :: live)
      (Vm.clearPage { vm with pool := pool } (pageToPa page)) := by
  have unused := grounded.unused taken small
  refine ⟨grounded.forest.plant unused level leaves okZero, taken.list,
    fun other otherSmall free => ?_⟩
  have none := grounded.fresh other otherSmall (taken.still free).2
  show copies (cleared vm.mem (pageToPa page)) _ _ = 0
  rw [copies] at none
  rw [copies, total_planted _ _ level leaves unused rfl, none,
    if_neg (taken.apart small otherSmall free)]

end Taken

/-- A store to a 4 KB entry, whatever becomes of the reference counts. -/
theorem Grounded.setLeaf (grounded : Grounded entryOk live vm) (member : tree ∈ live)
    {dir : PhysAddr} {index : Nat} (table : tree.Table vm.mem 0 dir) (bound : index < nptentries)
    (pte : Ptent) (ref : Nat → Nat) :
    Grounded entryOk live
      (Vm.setPte { vm with pool := { vm.pool with ref := ref } } ⟨dir, index⟩ pte) := by
  refine ⟨grounded.forest.setLeaf member table bound pte,
    ⟨grounded.list.nodup, grounded.list.inPool⟩, fun page small free => ?_⟩
  show copies (setWord vm.mem dir index pte) _ _ = 0
  rw [copies_setWord_leaf grounded.forest member table bound]
  exact grounded.fresh page small free

theorem Grounded.weaken {weaker : Nat → Ptent → Prop} (grounded : Grounded entryOk live vm)
    (weakens : ∀ level pte, entryOk level pte → weaker level pte) : Grounded weaker live vm :=
  ⟨⟨grounded.forest.distinct, fun tree member low dir index table bound =>
    weakens _ _ (grounded.forest.entries tree member low dir index table bound)⟩,
    grounded.list, grounded.fresh⟩

/-- New tables keep a property if every page that can be allocated may become one. -/
theorem installKeeps_of_taken {kept ended : Vm → Prop} (list : ∀ vm, kept vm → FreeList vm.pool)
    (install : ∀ vm low dir index page pool, kept vm → Taken vm.pool page pool →
      pool.numPages ≤ maxPages → tree.Table vm.mem (low + 1) dir → index < nptentries →
      tableOf low (vm.mem dir index) = none →
      kept (installTable { vm with pool := pool } ⟨dir, index⟩ (pageToPa page)) ∧
        Extends live vm.mem (installed vm.mem dir index (pageToPa page))) :
    InstallKeeps exhausted kept ended live tree where
  allocLost := allocPage_exhausted
  refused := by
    intro vm holds none
    rcases allocPage_taken (list vm holds) with ⟨page, pool, allocated, _⟩ | ⟨pool, refused, gone⟩
    · rw [allocated] at none
      exact absurd rfl (none _)
    · rw [refused]
      exact Or.inl gone
  install := by
    intro vm low dir index address next holds table bound absent allocated
    rcases allocPage_taken (list vm holds) with ⟨page, pool, result, taken⟩ | ⟨pool, refused, _⟩
    · rw [result, Prod.mk.injEq, Option.some.injEq, Option.some.injEq] at allocated
      obtain ⟨rfl, rfl⟩ := allocated
      by_cases small : pool.numPages ≤ maxPages
      · have empty : tableOf low (vm.mem dir index) = none := by simp [tableOf, absent]
        exact Or.inr (install vm low dir index page pool holds taken small table bound empty)
      · exact Or.inl (Or.inr (Nat.lt_of_not_le small))
    · rw [refused] at allocated
      simp at allocated
  aligned := by
    intro vm address next holds allocated
    rcases allocPage_taken (list vm holds) with ⟨page, pool, result, taken⟩ | ⟨pool, refused, _⟩
    · rw [result, Prod.mk.injEq, Option.some.injEq, Option.some.injEq] at allocated
      obtain ⟨rfl, rfl⟩ := allocated
      by_cases small : pool.numPages ≤ maxPages
      · exact Or.inr (taken.aligned small)
      · exact Or.inl (Or.inr (Nat.lt_of_not_le small))
    · rw [refused] at allocated
      simp at allocated

/-! The operations that enter 4 KB pages. -/

theorem grounded_installKeeps (member : tree ∈ live) :
    InstallKeeps exhausted (Grounded entryTable live) (Grounded entryTable live) live tree := by
  refine installKeeps_of_taken (fun vm grounded => grounded.list) ?_
  intro vm low dir index page pool grounded taken small table bound empty
  refine ⟨grounded.install taken small entryTable_zero entryTable_table member table bound empty, ?_⟩
  exact grounded.forest.install_extends member table bound empty (grounded.unused taken small)
    (taken.aligned small)

/-- A walk without big pages keeps the tables if its callback only stores to the entry it
is called with. -/
theorem grounded_walkKeeps {cb : PageWalkCb} {create : Create}
    (plainCreate : create = .none ∨ create = .normal) (member : tree ∈ live)
    (cbLost : ∀ slot va vm, exhausted vm.pool → exhausted (cb slot va vm).2.pool)
    (stores : ∀ vm slot va, FreeList vm.pool → exhausted (cb slot va vm).2.pool ∨ ∃ pte pool,
      (cb slot va vm).2 = Vm.setPte { vm with pool := pool } slot pte ∧
        (pool = vm.pool ∨ ∃ page, Taken vm.pool page pool)) :
    WalkKeeps exhausted (Grounded entryTable live) live tree cb create where
  member := member
  cbLost := cbLost
  small := by
    intro vm grounded low dir index table bound
    have small := (grounded.forest.entries tree member low dir index table bound).small
    rcases plainCreate with rfl | rfl <;> simp [bigSlot, small]
  leaf := by
    intro vm dir index va grounded table bound _
    rcases stores vm ⟨dir, index⟩ va grounded.list with gone | ⟨pte, pool, result, origin⟩
    · exact Or.inl gone
    · rw [result]
      refine Or.inr ⟨?_, grounded.forest.setLeaf_extends member table pte⟩
      rcases origin with same | ⟨page, taken⟩
      · subst same
        exact grounded.setLeaf member table bound pte vm.pool.ref
      · exact (grounded.alloc taken).setLeaf member table bound pte pool.ref
  tables := Or.inr (grounded_installKeeps member)

section Operations

variable {root : PhysAddr} (grounded : Grounded entryTable [treeOf root] vm) (va len : Nat)
  (perm : Perm)

include grounded

theorem vmMapPages_grounded : exhausted (vmMapPages root va len perm vm).2.pool ∨
    Grounded entryTable [treeOf root] (vmMapPages root va len perm vm).2 := by
  have lost : ∀ slot va vm, exhausted vm.pool →
      exhausted (mapPagesHelper (getPtePerm perm) slot va vm).2.pool := by
    intro slot va vm already
    have after := allocPage_exhausted vm already
    rw [allocPage_pool] at after
    unfold mapPagesHelper
    split
    all_goals
      rename_i outcome
      rw [outcome] at after
      exact after
  have rule : WalkKeeps exhausted (Grounded entryTable [treeOf root]) [treeOf root] (treeOf root)
      (mapPagesHelper (getPtePerm perm)) .normal := by
    refine grounded_walkKeeps (Or.inr rfl) (by simp) lost fun vm slot va list => ?_
    unfold mapPagesHelper
    rcases pageAlloc_spec list with ⟨page, result, taken⟩ | refused
    · have allocated : pageAlloc vm.pool = (some (some page), (pageAlloc vm.pool).2) :=
        Prod.ext result rfl
      rw [allocated]
      exact Or.inr ⟨_, _, rfl, Or.inr ⟨page, taken⟩⟩
    · rw [refused]
      exact Or.inl (Or.inl rfl)
  unfold vmMapPages
  split
  · exact Or.inr grounded
  · exact (rule.pageWalk 3 root va (lastVa va len) vm grounded
      (Tree.rootTable (treeOf root) vm.mem)).imp_right And.left

theorem vmMprotect_grounded : exhausted (vmMprotect root va len perm vm).2.pool ∨
    Grounded entryTable [treeOf root] (vmMprotect root va len perm vm).2 := by
  have rule : WalkKeeps exhausted (Grounded entryTable [treeOf root]) [treeOf root] (treeOf root)
      (mprotectHelper (getPtePerm (if perm.has permR then perm else 0))) .none :=
    grounded_walkKeeps (Or.inl rfl) (by simp) (fun _ _ _ already => already) fun vm slot va _ =>
      Or.inr ⟨_, vm.pool, rfl, Or.inl rfl⟩
  unfold vmMprotect
  split
  · exact Or.inr grounded
  · exact (rule.pageWalk 3 root va (lastVa va len) vm grounded
      (Tree.rootTable (treeOf root) vm.mem)).imp_right And.left

theorem vmMapPhys_grounded (pa : PhysAddr) (small : perm.has permBig = false)
    (notHuge : perm.has permBig1gb = false) :
    exhausted (vmMapPhys root va len pa perm vm).2.pool ∨
      Grounded entryTable [treeOf root] (vmMapPhys root va len pa perm vm).2 := by
  have rule : WalkKeeps exhausted (Grounded entryTable [treeOf root]) [treeOf root] (treeOf root)
      (mapPhysHelper (getPtePerm perm) va pa) .normal :=
    grounded_walkKeeps (Or.inr rfl) (by simp) (fun _ _ _ already => already) fun vm slot va _ =>
      Or.inr ⟨_, vm.pool, rfl, Or.inl rfl⟩
  unfold vmMapPhys
  simp only [small, notHuge, if_false, Bool.false_eq_true]
  exact (rule.pageWalk 3 root va (lastVa va len) vm grounded
    (Tree.rootTable (treeOf root) vm.mem)).imp_right And.left

end Operations

/-! A blank root, and a page mapped under it. -/

theorem blank_grounded {pool : PagePool} {root : PhysAddr} (list : FreeList pool)
    (outside : root.toNat < 0x200000000) :
    Grounded entryTable [treeOf root] ⟨pool, fun _ _ => 0⟩ := by
  refine ⟨Forest.blank root entryTable_zero, list, fun page small _ => ?_⟩
  have different : root ≠ pageToPa page := by
    intro same
    have value := congrArg BitVec.toNat same
    rw [pageToPa_toNat (maxPages_small small)] at value
    omega
  show copies (fun _ _ => 0) _ _ = 0
  rw [copies_blank, if_neg different]

def blankVm : Vm where
  pool := {
    numPages := growSizePages
    ref := fun page => if page < growSizePages then 0 else 0
    free := insertedPages 0 growSizePages
    mmapOk := fun _ => true
    mapped := [pageBase]
    failed := false
    putZero := false }
  mem := fun _ _ => 0

theorem blankVm_pool : pageInit (fun _ => true) (fun _ => 0) = some blankVm.pool := rfl

def mappedVm : Vm := (vmMapPages 0x1000#64 0 4096 (permR ||| permW) blankVm).2

theorem mappedVm_grounded : Grounded entryTable [treeOf 0x1000#64] mappedVm := by
  have blank : Grounded entryTable [treeOf 0x1000#64] blankVm :=
    blank_grounded (pageInit_spec blankVm_pool).1 (by decide)
  refine (vmMapPages_grounded blank 0 4096 (permR ||| permW)).resolve_left ?_
  unfold exhausted outgrown
  decide +kernel

theorem mappedVm_clones : ¬ exhausted (vmClone 0x1000#64 mappedVm).2.pool := by
  unfold exhausted outgrown
  decide +kernel

end RdmaPaging
