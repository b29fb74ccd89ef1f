import RdmaPaging.VmWalk

/-!
Reference counts. Every page of the pool has at least as many references as it has uses:
places where it serves as a page table of a live tree, and 4 KB entries that map it.
-/

namespace RdmaPaging

open RadixTree

/-- How often a pool page is used as a table or mapped by a counted 4 KB entry. -/
def uses (mem : PhysAddr → Nat → Ptent) (live : List Tree) (page : Nat) : Nat :=
  total (fun _ dir => if dir = pageToPa page then 1 else 0)
    (fun pte => if pteAddr pte = pageToPa page then 1 else 0) mem live

structure Accounted (window : Nat) (live : List Tree) (vm : Vm) : Prop where
  forest : Forest entryPlain vm.mem live
  backed : ∀ page < window, uses vm.mem live page ≤ refOf vm.pool page
  list : FreeList vm.pool
  freed : ∀ page ∈ vm.pool.free, refOf vm.pool page = 0
  noZero : vm.pool.putZero = false
  inWindow : vm.pool.numPages ≤ window

/-- The pool has outgrown the pages that are accounted for. -/
def outgrown (window : Nat) (pool : PagePool) : Prop := window < pool.numPages

variable {window : Nat} {live : List Tree} {tree : Tree} {vm : Vm}

theorem takeFirst_pool (pool : PagePool) :
    ∃ ref free, (takeFirst pool).2 = { pool with ref := ref, free := free } := by
  unfold takeFirst
  split
  · exact ⟨pool.ref, pool.free, rfl⟩
  · unfold pageGet
    split
    all_goals
      rename_i outcome
      split at outcome
      all_goals
        simp only [Prod.mk.injEq] at outcome
        rw [← outcome.2]
        exact ⟨_, _, rfl⟩

/-- Allocation never shrinks the pool and never forgets a failure. -/
theorem pageAlloc_grows (pool : PagePool) : pool.numPages ≤ (pageAlloc pool).2.numPages ∧
    (pool.failed = true → (pageAlloc pool).2.failed = true) := by
  unfold pageAlloc
  split
  · split
    · rename_i grown ran
      obtain ⟨ref, free, taken⟩ := takeFirst_pool grown
      rw [taken]
      unfold growSize at ran
      split at ran
      · rw [← Option.some.inj ran]
        exact ⟨Nat.le_add_right _ _, id⟩
      · simp at ran
    · exact ⟨Nat.le_refl _, fun _ => rfl⟩
  · obtain ⟨ref, free, taken⟩ := takeFirst_pool pool
    rw [taken]
    exact ⟨Nat.le_refl _, id⟩

theorem allocPage_pool (vm : Vm) : (allocPage vm).2 = { vm with pool := (pageAlloc vm.pool).2 } := by
  unfold allocPage
  split
  all_goals
    rename_i outcome
    simp [outcome]

theorem allocPage_outgrown (vm : Vm) (already : outgrown window vm.pool) :
    outgrown window (allocPage vm).2.pool := by
  have grows := (pageAlloc_grows vm.pool).1
  rw [allocPage_pool]
  unfold outgrown at already ⊢
  dsimp only
  omega

theorem copies_le_uses (mem : PhysAddr → Nat → Ptent) (live : List Tree) (page : Nat) :
    copies mem live (pageToPa page) ≤ uses mem live page := by
  simp only [copies, uses, total]
  apply List.sum_le_sum
  intro tree _
  rw [tree_occurrences]
  exact weigh_mono (fun _ _ => Nat.le_refl _) (fun _ => Nat.zero_le _) tree.level tree.root

theorem leafWeight_zero {page : Nat} (bound : page < 2 ^ 30) :
    (fun pte : Ptent => if pteAddr pte = pageToPa page then 1 else 0) 0 = 0 := by
  have different : pteAddr 0 ≠ pageToPa page := by
    intro same
    exact pageToPa_ne_zero bound (same.symm.trans (by decide))
  exact if_neg different

theorem Accounted.drop (accounted : Accounted window (tree :: live) vm) :
    Accounted window live vm := by
  refine { accounted with forest := accounted.forest.drop, backed := fun page bound => ?_ }
  have backed := accounted.backed page bound
  rw [uses, total_cons] at backed
  exact Nat.le_trans (Nat.le_add_left _ _) backed

theorem Accounted.perm {other : List Tree} (accounted : Accounted window live vm)
    (same : live.Perm other) : Accounted window other vm := by
  refine { accounted with forest := accounted.forest.perm same, backed := fun page bound => ?_ }
  have backed := accounted.backed page bound
  rw [uses, total_perm same] at backed
  exact backed

theorem Accounted.unused {page : Nat} (accounted : Accounted window live vm) (bound : page < window)
    (source : page ∈ vm.pool.free ∨ vm.pool.numPages ≤ page) : uses vm.mem live page = 0 := by
  have none : refOf vm.pool page = 0 := by
    rcases source with listed | outside
    · exact accounted.freed page listed
    · simp [refOf, Nat.not_lt.mpr outside]
  have backed := accounted.backed page bound
  omega

/-- What an allocation does in an accounted state. -/
theorem Accounted.alloc (accounted : Accounted window live vm) :
    (∃ page pool, pageAlloc vm.pool = (some (some page), pool) ∧
      (outgrown window pool ∨ page < window ∧ uses vm.mem live page = 0 ∧
        refOf pool page = 1 ∧ Accounted window live { vm with pool := pool })) ∨
    ∃ pool, pageAlloc vm.pool = (some none, pool) ∧
      Accounted window live { vm with pool := pool } := by
  rcases pageAlloc_spec accounted.list with ⟨page, result, taken⟩ | refused
  · refine Or.inl ⟨page, (pageAlloc vm.pool).2, Prod.ext result rfl, ?_⟩
    by_cases inside : (pageAlloc vm.pool).2.numPages ≤ window
    · right
      have bound : page < window := Nat.lt_of_lt_of_le taken.inPool inside
      have free : refOf vm.pool page = 0 := by
        rcases taken.source with listed | outside
        · exact accounted.freed page listed
        · simp [refOf, Nat.not_lt.mpr outside]
      refine ⟨bound, accounted.unused bound taken.source, ?_, ?_⟩
      · rw [taken.refs page, free, if_pos rfl]
      · refine ⟨accounted.forest, fun other otherBound => ?_, taken.list, fun other member => ?_,
          taken.putZero.trans accounted.noZero, inside⟩
        · show uses vm.mem live other ≤ refOf (pageAlloc vm.pool).2 other
          rw [taken.refs other]
          exact Nat.le_trans (accounted.backed other otherBound) (Nat.le_add_right _ _)
        · show refOf (pageAlloc vm.pool).2 other = 0
          obtain ⟨different, origin⟩ := taken.rest other member
          rw [taken.refs other, if_neg different, Nat.add_zero]
          rcases origin with listed | outside
          · exact accounted.freed other listed
          · simp [refOf, Nat.not_lt.mpr outside]
    · exact Or.inl (Nat.lt_of_not_le inside)
  · exact Or.inr ⟨_, refused,
      { accounted with list := ⟨accounted.list.nodup, accounted.list.inPool⟩ }⟩

section Step

variable (windowBound : window ≤ maxPages) (accounted : Accounted window live vm)
variable (member : tree ∈ live) {dir : PhysAddr} {index : Nat} (bound : index < nptentries)

theorem Accounted.aligned {page : Nat} (windowBound : window ≤ maxPages) (bound : page < window) :
    pteAddr (pageToPa page) = pageToPa page := by
  unfold maxPages at windowBound
  exact pteAddr_pageToPa (by omega)

include windowBound accounted member bound

/-- A fresh page becomes a table: its reference is the use. -/
theorem Accounted.install {low page : Nat} (table : tree.Table vm.mem (low + 1) dir)
    (empty : tableOf low (vm.mem dir index) = none) (pageBound : page < window)
    (unused : uses vm.mem live page = 0) (referenced : refOf vm.pool page = 1) :
    Accounted window live (installTable vm ⟨dir, index⟩ (pageToPa page)) ∧
      Extends live vm.mem (installTable vm ⟨dir, index⟩ (pageToPa page)).mem := by
  have free : copies vm.mem live (pageToPa page) = 0 := by
    have counted := copies_le_uses vm.mem live page
    omega
  have aligned := Accounted.aligned windowBound pageBound
  have small : page < 2 ^ 30 := by
    unfold maxPages at windowBound
    omega
  refine ⟨{ accounted with forest := ?_, backed := fun other otherBound => ?_ }, ?_⟩
  · exact accounted.forest.install member table bound empty free aligned entryPlain_zero
      entryPlain_table
  · have otherSmall : other < 2 ^ 30 := by
      unfold maxPages at windowBound
      omega
    show uses (installed vm.mem dir index (pageToPa page)) live other ≤ refOf vm.pool other
    rw [uses, accounted.forest.total_installed member table bound empty free aligned
      (leafWeight_zero otherSmall)]
    by_cases isPage : pageToPa page = pageToPa other
    · have same := pageToPa_injective small otherSmall isPage
      subst same
      rw [if_pos rfl, referenced]
      unfold uses at unused
      omega
    · rw [if_neg isPage]
      exact accounted.backed other otherBound
  · exact accounted.forest.install_extends member table bound empty free aligned

omit windowBound

theorem Accounted.leaf_used {page : Nat} (table : tree.Table vm.mem 0 dir)
    (leaves : tree.leaves = true) (mapped : pteAddr (vm.mem dir index) = pageToPa page) :
    1 ≤ uses vm.mem live page := by
  have inTree := Within.atWord_le table (fun _ dir => if dir = pageToPa page then 1 else 0)
    (fun pte => if tree.leaves then (if pteAddr pte = pageToPa page then 1 else 0) else 0) bound
  rw [if_pos leaves, if_pos mapped] at inTree
  exact Nat.le_trans inTree (weigh_le_total member)

/-- A store to a 4 KB entry, with the references moved so that the page it maps now has
one more and the page it mapped has at most one less. -/
theorem Accounted.setLeaf (table : tree.Table vm.mem 0 dir) (pte : Ptent) {pool : PagePool}
    (list : FreeList pool) (freed : ∀ page ∈ pool.free, refOf pool page = 0)
    (noZero : pool.putZero = false) (inWindow : pool.numPages ≤ window)
    (moved : ∀ page < window, uses vm.mem live page ≤ refOf vm.pool page →
      uses vm.mem live page +
          (if tree.leaves ∧ pteAddr pte = pageToPa page then 1 else 0) ≤
        refOf pool page +
          if tree.leaves ∧ pteAddr (vm.mem dir index) = pageToPa page then 1 else 0) :
    Accounted window live (Vm.setPte { vm with pool := pool } ⟨dir, index⟩ pte) ∧
      Extends live vm.mem (Vm.setPte { vm with pool := pool } ⟨dir, index⟩ pte).mem := by
  refine ⟨⟨accounted.forest.setLeaf member table bound pte, fun page pageBound => ?_, list, freed,
    noZero, inWindow⟩, accounted.forest.setLeaf_extends member table pte⟩
  have balance := accounted.forest.total_setWord member table
    (fun _ dir => if dir = pageToPa page then 1 else 0)
    (fun pte => if pteAddr pte = pageToPa page then 1 else 0) bound pte
  have accountedFor := moved page pageBound (accounted.backed page pageBound)
  show uses (setWord vm.mem dir index pte) live page ≤ refOf pool page
  unfold uses at accountedFor ⊢
  simp only [part, ← ite_and] at balance
  omega

end Step

theorem pagePut_eq {pool : PagePool} {page : Nat} (inPool : page < pool.numPages)
    (referenced : pool.ref page ≠ 0) :
    pagePut page pool = (some (), { pool with
      ref := Function.update pool.ref page (pool.ref page - 1)
      free := if pool.ref page - 1 = 0 then page :: pool.free else pool.free }) := by
  simp [pagePut, inPool, referenced]

/-- A put of a referenced page takes one reference, and frees the page with the last. -/
theorem pagePut_spec {pool : PagePool} {page : Nat} (list : FreeList pool)
    (freed : ∀ page ∈ pool.free, refOf pool page = 0) (inPool : page < pool.numPages)
    (referenced : 1 ≤ refOf pool page) :
    ∃ after, pagePut page pool = (some (), after) ∧ FreeList after ∧
      (∀ page ∈ after.free, refOf after page = 0) ∧ after.putZero = pool.putZero ∧
      after.numPages = pool.numPages ∧
      ∀ other, refOf after other = refOf pool other - if other = page then 1 else 0 := by
  have count : pool.ref page = refOf pool page := by simp [refOf, inPool]
  have refs : ∀ other, refOf { pool with
      ref := Function.update pool.ref page (pool.ref page - 1)
      free := if pool.ref page - 1 = 0 then page :: pool.free else pool.free } other =
      refOf pool other - if other = page then 1 else 0 := by
    intro other
    simp only [refOf, Function.update_apply]
    by_cases same : other = page
    · subst same
      simp [inPool]
    · simp [same]
  have notListed : page ∉ pool.free := by
    intro listed
    have none := freed page listed
    omega
  refine ⟨_, pagePut_eq inPool (by omega), ⟨?_, ?_⟩, ?_, rfl, rfl, refs⟩
  · show (if pool.ref page - 1 = 0 then page :: pool.free else pool.free).Nodup
    split
    · exact List.nodup_cons.mpr ⟨notListed, list.nodup⟩
    · exact list.nodup
  · intro other member
    replace member : other ∈ (if pool.ref page - 1 = 0 then page :: pool.free else pool.free) := member
    split at member
    · rcases List.mem_cons.mp member with same | old
      · exact same ▸ inPool
      · exact list.inPool other old
    · exact list.inPool other member
  · intro other member
    replace member : other ∈ (if pool.ref page - 1 = 0 then page :: pool.free else pool.free) := member
    rw [refs other]
    split at member
    · rename_i last
      rcases List.mem_cons.mp member with same | old
      · rw [same, if_pos rfl, ← count]
        exact last
      · rw [freed other old]
        exact Nat.zero_sub _
    · rw [freed other member]
      exact Nat.zero_sub _

theorem pageGet_spec {pool : PagePool} {page : Nat} (list : FreeList pool)
    (freed : ∀ page ∈ pool.free, refOf pool page = 0) (inPool : page < pool.numPages)
    (referenced : 1 ≤ refOf pool page) :
    ∃ after, pageGet page pool = (some (), after) ∧ FreeList after ∧
      (∀ page ∈ after.free, refOf after page = 0) ∧ after.putZero = pool.putZero ∧
      after.numPages = pool.numPages ∧
      ∀ other, refOf after other = refOf pool other + if other = page then 1 else 0 := by
  have refs : ∀ other, refOf { pool with
      ref := Function.update pool.ref page (pool.ref page + 1) } other =
      refOf pool other + if other = page then 1 else 0 := by
    intro other
    simp only [refOf, Function.update_apply]
    by_cases same : other = page
    · subst same
      simp [inPool]
    · simp [same]
  refine ⟨_, if_pos inPool, ⟨list.nodup, list.inPool⟩, ?_, rfl, rfl, refs⟩
  intro other member
  have none := freed other member
  have different : other ≠ page := by
    rintro rfl
    omega
  rw [refs other, if_neg different, none]

/-! The five operations. -/

variable {window : Nat} {live : List Tree} {tree : Tree}

theorem accounted_small (vm : Vm) (accounted : Accounted window live vm) (member : tree ∈ live)
    (create : Create) (plainCreate : create = .none ∨ create = .normal) (low : Nat)
    (dir : PhysAddr) (index : Nat) (table : tree.Table vm.mem (low + 1) dir)
    (bound : index < nptentries) : bigSlot (low + 1) create (vm.mem dir index) = false := by
  have small : pteBig (vm.mem dir index) = false := by
    rcases accounted.forest.entries tree member low dir index table bound with isZero | ⟨_, small⟩
    · rw [isZero]
      decide
    · exact small
  rcases plainCreate with rfl | rfl <;> simp [bigSlot, small]

theorem accounted_installKeeps (windowBound : window ≤ maxPages) (member : tree ∈ live) :
    InstallKeeps (outgrown window) (Accounted window live) (Accounted window live) live tree where
  allocLost := fun vm already => allocPage_outgrown vm already
  refused := by
    intro vm accounted _
    rw [allocPage_pool]
    rcases accounted.alloc with ⟨page, pool, taken, gone | ⟨_, _, _, later⟩⟩ | ⟨pool, refused, later⟩
    · rw [taken]
      exact Or.inl gone
    · rw [taken]
      exact Or.inr ⟨later, Extends.refl⟩
    · rw [refused]
      exact Or.inr ⟨later, Extends.refl⟩
  install := by
    intro vm low dir index address next accounted table bound absent taken
    rcases accounted.alloc with ⟨page, pool, allocated, outcome⟩ | ⟨pool, refused, _⟩
    · simp only [allocPage, allocated, Prod.mk.injEq, Option.some.injEq] at taken
      obtain ⟨rfl, rfl⟩ := taken
      rcases outcome with gone | ⟨pageBound, unused, referenced, later⟩
      · exact Or.inl gone
      · refine Or.inr (later.install windowBound member bound table ?_ pageBound unused referenced)
        simp [tableOf, absent]
    · simp [allocPage, refused] at taken
  aligned := by
    intro vm address next accounted taken
    rcases accounted.alloc with ⟨page, pool, allocated, outcome⟩ | ⟨pool, refused, _⟩
    · simp only [allocPage, allocated, Prod.mk.injEq, Option.some.injEq] at taken
      obtain ⟨rfl, rfl⟩ := taken
      rcases outcome with gone | ⟨pageBound, _⟩
      · exact Or.inl gone
      · exact Or.inr (Accounted.aligned windowBound pageBound)
    · simp [allocPage, refused] at taken

theorem mapPagesHelper_walkKeeps (windowBound : window ≤ maxPages) (member : tree ∈ live)
    (perm : Perm) :
    WalkKeeps (outgrown window) (Accounted window live) live tree
      (mapPagesHelper (getPtePerm perm)) .normal where
  member := member
  cbLost := by
    intro slot va vm already
    have grows := (pageAlloc_grows vm.pool).1
    unfold outgrown at already ⊢
    unfold mapPagesHelper
    split
    all_goals
      rename_i outcome
      rw [outcome] at grows
      exact Nat.lt_of_lt_of_le already grows
  small := fun vm accounted => accounted_small vm accounted member .normal (Or.inr rfl)
  leaf := by
    intro vm dir index va accounted table bound _
    unfold mapPagesHelper
    rcases accounted.alloc with ⟨page, pool, allocated, gone | ⟨pageBound, unused, referenced, later⟩⟩ |
      ⟨pool, refused, later⟩
    · rw [allocated]
      exact Or.inl gone
    · rw [allocated]
      have address : pteAddr (pteAddr (pageToPa page) ||| getPtePerm perm) = pageToPa page := by
        rw [pteAddr_or _ _ (pteAddr_getPtePerm perm), Accounted.aligned windowBound pageBound]
      refine Or.inr (later.setLeaf member bound table _ later.list later.freed later.noZero
        later.inWindow fun other otherBound backed => ?_)
      rw [address]
      by_cases same : pageToPa page = pageToPa other
      · unfold maxPages at windowBound
        obtain rfl := pageToPa_injective (by omega) (by omega) same
        have none : uses vm.mem live page = 0 := unused
        show uses vm.mem live page + _ ≤ refOf pool page + _
        rw [none, referenced]
        split <;> omega
      · simp only [same, and_false, if_false]
        exact Nat.le_trans backed (Nat.le_add_right _ _)
    · rw [refused]
      exact Or.inr ⟨later, Extends.refl⟩
  tables := Or.inr (accounted_installKeeps windowBound member)

theorem mprotectHelper_walkKeeps (member : tree ∈ live) (perm : Perm) :
    WalkKeeps (fun _ => False) (Accounted window live) live tree
      (mprotectHelper (getPtePerm perm)) .none where
  member := member
  cbLost := fun slot va vm already => already
  small := fun vm accounted => accounted_small vm accounted member .none (Or.inl rfl)
  leaf := by
    intro vm dir index va accounted table bound _
    have address : ∀ pte : Ptent, pteAddr (pteAddr pte ||| (pteFlags pte &&& ptePs) |||
        getPtePerm perm) = pteAddr pte := by
      intro pte
      rw [BitVec.or_assoc]
      apply pteAddr_or
      have flags : pteAddr (pteFlags pte &&& ptePs) = 0 := by
        simp only [pteAddr, BitVec.and_assoc]
        have disjoint : ptePs &&& 0xffffffffff000#64 = 0 := by decide
        rw [disjoint]
        simp
      have permission := pteAddr_getPtePerm perm
      unfold pteAddr at flags permission ⊢
      rw [BitVec.and_or_distrib_right, flags, permission]
      rfl
    refine Or.inr (accounted.setLeaf member bound table _ accounted.list accounted.freed
      accounted.noZero accounted.inWindow fun other otherBound backed => ?_)
    simp only [address]
    omega
  tables := Or.inl rfl

theorem freeHelper_walkKeeps (windowBound : window ≤ maxPages) (member : tree ∈ live)
    (leaves : tree.leaves = true) :
    WalkKeeps (fun _ => False) (Accounted window live) live tree freeHelper .none where
  member := member
  cbLost := fun _ _ _ already => already
  small := fun vm accounted => accounted_small vm accounted member .none (Or.inl rfl)
  leaf := by
    intro vm dir index va accounted table bound _
    unfold freeHelper
    dsimp only
    have zero : ∀ page < window, ¬ (tree.leaves = true ∧ pteAddr 0 = pageToPa page) := by
      intro page pageBound mapped
      unfold maxPages at windowBound
      exact pageToPa_ne_zero (show page < 2 ^ 30 by omega) (mapped.2.symm.trans (by decide))
    split
    · rename_i fromPool
      obtain ⟨page, inPool, mapped, isPage⟩ :=
        pageIsFromPool_page (Nat.le_trans accounted.inWindow windowBound) fromPool
      have pageBound := Nat.lt_of_lt_of_le inPool accounted.inWindow
      have used := accounted.leaf_used member bound table leaves mapped
      obtain ⟨after, put, list, freed, putZero, numPages, refs⟩ :=
        pagePut_spec accounted.list accounted.freed inPool
          (Nat.le_trans used (accounted.backed page pageBound))
      rw [isPage, put]
      refine Or.inr (accounted.setLeaf member bound table 0 list freed
        (putZero.trans accounted.noZero) (numPages ▸ accounted.inWindow)
        fun other otherBound backed => ?_)
      rw [if_neg (zero other otherBound), refs other]
      by_cases same : other = page
      · subst same
        rw [if_pos rfl, if_pos ⟨leaves, mapped⟩]
        omega
      · rw [if_neg same]
        omega
    · refine Or.inr (accounted.setLeaf member bound table 0 accounted.list accounted.freed
        accounted.noZero accounted.inWindow fun other otherBound backed => ?_)
      rw [if_neg (zero other otherBound)]
      omega
  tables := Or.inl rfl

/-! Cloning. -/

/-- Lookups in one tree do not change the 4 KB entries of another. -/
theorem accounted_installKeeps_word (windowBound : window ≤ maxPages) {newTree : Tree}
    (newMember : newTree ∈ live) (member : tree ∈ live) (dir : PhysAddr) {index : Nat}
    (pte : Ptent) :
    InstallKeeps (outgrown window) (fun vm => Accounted window live vm ∧
      tree.Table vm.mem 0 dir ∧ vm.mem dir index = pte) (Accounted window live) live newTree where
  allocLost := fun vm already => allocPage_outgrown vm already
  refused := by
    intro vm kept refused
    exact (accounted_installKeeps windowBound newMember).refused vm kept.1 refused
  install := by
    intro vm low top position address next kept above bound absent taken
    obtain ⟨accounted, table, word⟩ := kept
    rcases (accounted_installKeeps windowBound newMember).install vm low top position address next
      accounted above bound absent taken with gone | ⟨later, grows⟩
    · exact Or.inl gone
    · have sameMem : next.mem = vm.mem := by
        have afterwards := congrArg Vm.mem (allocPage_pool vm)
        rw [taken] at afterwards
        exact afterwards
      have apart : dir ≠ top := by
        intro same
        subst same
        have level := (accounted.forest.table_unique member newMember table above).2
        omega
      have notPage : dir ≠ address := by
        rcases accounted.alloc with ⟨page, pool, allocated, outcome⟩ | ⟨pool, refused, _⟩
        · simp only [allocPage, allocated, Prod.mk.injEq, Option.some.injEq] at taken
          obtain ⟨rfl, rfl⟩ := taken
          rcases outcome with gone | ⟨_, unused, _⟩
          · exact absurd later.inWindow (Nat.not_le.mpr gone)
          · apply table.ne_of_copies member
            have counted := copies_le_uses vm.mem live page
            omega
        · simp [allocPage, refused] at taken
      refine Or.inr ⟨⟨later, grows.table member table, ?_⟩, grows⟩
      rw [installTable_mem, installed, setWord, if_neg (by simp [apart]), cleared,
        if_neg notPage, sameMem, word]
  aligned := fun vm page next kept => (accounted_installKeeps windowBound newMember).aligned vm page next kept.1

theorem cloneEntry_keeps (windowBound : window ≤ maxPages) {newTree : Tree}
    (newMember : newTree ∈ live) (exactPool : newTree.leaves = true → window < 2 ^ 19)
    (member : tree ∈ live) (leaves : tree.leaves = true) {vm : Vm} {dir leaf : PhysAddr}
    {index position : Nat} (accounted : Accounted window live vm) (table : tree.Table vm.mem 0 dir)
    (bound : index < nptentries) (leafTable : newTree.Table vm.mem 0 leaf)
    (leafBound : position < nptentries) :
    Keeps (outgrown window) (Accounted window live) live vm
      (cloneEntry (paToPage (pteAddr (vm.mem dir index))) (vm.mem dir index) ⟨leaf, position⟩ vm).2 := by
  unfold cloneEntry
  split
  · rename_i fromPool
    obtain ⟨page, inPool, mapped, isPage⟩ :=
      pageIsFromPool_page (Nat.le_trans accounted.inWindow windowBound) fromPool
    have pageBound := Nat.lt_of_lt_of_le inPool accounted.inWindow
    have used := accounted.leaf_used member bound table leaves mapped
    obtain ⟨after, got, list, freed, putZero, numPages, refs⟩ :=
      pageGet_spec accounted.list accounted.freed inPool
        (Nat.le_trans used (accounted.backed page pageBound))
    rw [isPage, got]
    refine Or.inr (accounted.setLeaf newMember leafBound leafTable _ list freed
      (putZero.trans accounted.noZero) (numPages ▸ accounted.inWindow)
      fun other otherBound backed => ?_)
    rw [refs other]
    by_cases same : other = page
    · rw [if_pos same]
      split <;> omega
    · have different : pageToPa page ≠ pageToPa other := by
        unfold maxPages at windowBound
        intro equal
        exact same (pageToPa_injective (by omega) (by omega) equal).symm
      rw [if_neg (by simp [mapped, different])]
      omega
  · rename_i outside
    refine Or.inr (accounted.setLeaf newMember leafBound leafTable _ accounted.list accounted.freed
      accounted.noZero accounted.inWindow fun other otherBound backed => ?_)
    have notMapped : ¬ (newTree.leaves = true ∧ pteAddr (vm.mem dir index) = pageToPa other) := by
      rintro ⟨counts, mapped⟩
      have used := accounted.leaf_used member bound table leaves mapped
      have small := exactPool counts
      have inPool : other < vm.pool.numPages := by
        by_contra beyond
        simp only [refOf, beyond, if_false] at backed
        omega
      have inWindow := accounted.inWindow
      have isFrom := pageIsFromPool_pageToPa (show vm.pool.numPages < 2 ^ 19 by omega) inPool
      rw [mapped] at outside
      exact outside isFrom
    rw [if_neg notMapped]
    omega

theorem cloneEntry_pool (pg : Nat) (pte : Ptent) (slot : PteRef) (vm : Vm) :
    ∃ ref, (cloneEntry pg pte slot vm).2.pool = { vm.pool with ref := ref } := by
  unfold cloneEntry
  split
  · unfold pageGet
    split
    all_goals
      rename_i outcome
      split at outcome
      all_goals
        simp only [Prod.mk.injEq, reduceCtorEq, false_and] at outcome
    · rw [← outcome.2]
      exact ⟨_, rfl⟩
    · rw [← outcome.2]
      exact ⟨_, rfl⟩
  · exact ⟨_, rfl⟩

/-- Apart from its lookup, the clone callback changes reference counts only. -/
theorem cloneHelper_pool (newRoot : PhysAddr) (slot : PteRef) (va : Nat) (vm : Vm) :
    ∃ ref, (cloneHelper newRoot slot va vm).2.pool =
      { (vmLookup newRoot va .normal vm).2.pool with ref := ref } := by
  unfold cloneHelper
  dsimp only
  split
  all_goals
    rename_i outcome
    rw [outcome]
  · exact cloneEntry_pool _ _ _ _
  · exact ⟨_, rfl⟩
  · exact ⟨_, rfl⟩

theorem cloneHelper_outgrown (newRoot : PhysAddr) (slot : PteRef) (va : Nat) (vm : Vm)
    (already : outgrown window vm.pool) :
    outgrown window (cloneHelper newRoot slot va vm).2.pool := by
  obtain ⟨ref, pool⟩ := cloneHelper_pool newRoot slot va vm
  rw [pool]
  exact vmLookup_lost allocPage_outgrown newRoot va vm already

theorem cloneHelper_walkKeeps (windowBound : window ≤ maxPages) {newTree : Tree}
    (newMember : newTree ∈ live) (top : newTree.level = 3)
    (exactPool : newTree.leaves = true → window < 2 ^ 19) (member : tree ∈ live)
    (leaves : tree.leaves = true) :
    WalkKeeps (outgrown window) (Accounted window live) live tree
      (cloneHelper newTree.root) .none where
  member := member
  cbLost := cloneHelper_outgrown newTree.root
  small := fun vm accounted => accounted_small vm accounted member .none (Or.inl rfl)
  leaf := by
    intro vm dir index va accounted table bound _
    have looked : LookupKeeps _ _ _ live vm (vmLookup newTree.root va .normal vm) _ :=
      (accounted_installKeeps_word windowBound newMember member dir (vm.mem dir index)).vmLookup
        newMember top (by simp)
        (fun vm kept => accounted_small vm kept.1 newMember .none (Or.inl rfl))
        ⟨accounted, table, rfl⟩ va
    rcases looked with gone | ⟨died, keeps⟩ | ⟨slot, next, result, ⟨later, laterTable, word⟩, grows,
      leads, position⟩
    · left
      obtain ⟨ref, pool⟩ := cloneHelper_pool newTree.root ⟨dir, index⟩ va vm
      rw [pool]
      exact gone
    · have ended : cloneHelper newTree.root ⟨dir, index⟩ va vm =
          (none, (vmLookup newTree.root va .normal vm).2) := by
        unfold cloneHelper
        dsimp only
        split
        all_goals
          rename_i outcome
          rw [outcome] at died ⊢
        · simp at died
        · simp at died
      rw [ended]
      exact keeps
    · unfold cloneHelper
      rw [result]
      dsimp only
      rw [← word]
      have leaf := leafTable_table top leads
      have entry := cloneEntry_keeps windowBound newMember exactPool member leaves later laterTable bound
        leaf (position ▸ pdx_bound 0 va)
      rcases entry with gone | ⟨last, more⟩
      · exact Or.inl gone
      · exact Or.inr ⟨last, grows.trans more⟩
  tables := Or.inl rfl

/-- A fresh page becomes an empty root. -/
theorem Accounted.plant {vm : Vm} {page : Nat} (windowBound : window ≤ maxPages)
    (accounted : Accounted window live vm) (pageBound : page < window)
    (unused : uses vm.mem live page = 0) (referenced : refOf vm.pool page = 1) (level : Nat)
    (counted : Bool) :
    Accounted window (⟨level, pageToPa page, counted⟩ :: live) (vm.clearPage (pageToPa page)) := by
  have free : copies vm.mem live (pageToPa page) = 0 := by
    have atMost := copies_le_uses vm.mem live page
    omega
  unfold maxPages at windowBound
  refine { accounted with
    forest := accounted.forest.plant free level counted entryPlain_zero
    backed := fun other otherBound => ?_ }
  have blank := total_planted (fun _ dir => if dir = pageToPa other then 1 else 0)
    (fun pte => if pteAddr pte = pageToPa other then 1 else 0) level counted free
    (leafWeight_zero (show other < 2 ^ 30 by omega))
  show uses (cleared vm.mem (pageToPa page)) _ other ≤ refOf vm.pool other
  rw [uses, blank]
  by_cases isPage : pageToPa page = pageToPa other
  · obtain rfl := pageToPa_injective (by omega) (by omega) isPage
    rw [if_pos rfl, referenced]
    unfold uses at unused
    omega
  · rw [if_neg isPage]
    exact accounted.backed other otherBound

/-- `dune_vm_free` takes the root for a table of a lower level. -/
theorem Accounted.lower {vm : Vm} {level : Nat} {root : PhysAddr} {leaves : Bool}
    (windowBound : window ≤ maxPages) (counted : Bool)
    (accounted : Accounted window (⟨level + 1, root, leaves⟩ :: live) vm) :
    Accounted window (⟨level, root, counted⟩ :: live) vm := by
  unfold maxPages at windowBound
  refine { accounted with
    forest := accounted.forest.lower counted
    backed := fun page pageBound => ?_ }
  refine Nat.le_trans ?_ (accounted.backed page pageBound)
  exact total_lowered counted accounted.forest (leafWeight_zero (show page < 2 ^ 30 by omega))
    fun _ _ => Nat.le_refl _

theorem freeWalk_accounted (windowBound : window ≤ maxPages) {vm : Vm} {level : Nat}
    {root : PhysAddr} (accounted : Accounted window (⟨level, root, true⟩ :: live) vm) :
    Accounted window (⟨level, root, true⟩ :: live)
      (pageWalk freeHelper .none level root vaStart vaEnd vm).2 := by
  have member : (⟨level, root, true⟩ : Tree) ∈ (⟨level, root, true⟩ : Tree) :: live := by simp
  have walked := (freeHelper_walkKeeps windowBound member rfl).pageWalk level root vaStart vaEnd vm
    accounted (Tree.rootTable _ vm.mem)
  exact (walked.resolve_left id).1

theorem putPage_accounted (windowBound : window ≤ maxPages) {vm : Vm} {level page : Nat}
    (pageBound : page < window)
    (accounted : Accounted window (⟨level, pageToPa page, true⟩ :: live) vm) :
    ∃ next, putPage (pageToPa page) vm = (some (), next) ∧ Accounted window live next := by
  unfold maxPages at windowBound
  have backed := accounted.backed page pageBound
  have root : 1 ≤ Tree.weigh (fun _ dir => if dir = pageToPa page then 1 else 0)
      (fun pte => if pteAddr pte = pageToPa page then 1 else 0) vm.mem
      ⟨level, pageToPa page, true⟩ := by
    have here := Within.atTable_le (Tree.rootTable ⟨level, pageToPa page, true⟩ vm.mem)
      (fun _ dir => if dir = pageToPa page then 1 else 0)
      (fun pte => if pteAddr pte = pageToPa page then 1 else 0)
    rw [if_pos rfl] at here
    exact here
  rw [uses, total_cons] at backed
  have inPool : page < vm.pool.numPages := by
    by_contra beyond
    simp only [refOf, beyond, if_false] at backed
    omega
  obtain ⟨after, put, list, freed, putZero, numPages, refs⟩ :=
    pagePut_spec accounted.list accounted.freed inPool (by omega)
  refine ⟨{ vm with pool := after }, ?_, ⟨accounted.forest.drop, fun other otherBound => ?_, list,
    freed, putZero.trans accounted.noZero, numPages ▸ accounted.inWindow⟩⟩
  · simp only [putPage, paToPage_pageToPa (show page < 2 ^ 30 by omega), put]
  · show uses vm.mem live other ≤ refOf after other
    have otherBacked := accounted.drop.backed other otherBound
    rw [refs other]
    by_cases same : other = page
    · subst same
      rw [if_pos rfl, uses]
      omega
    · rw [if_neg same]
      exact otherBacked

theorem pagePut_pool (page : Nat) (pool : PagePool) : ∃ ref free putZero,
    (pagePut page pool).2 = { pool with ref := ref, free := free, putZero := putZero } := by
  unfold pagePut
  split
  · exact ⟨_, _, _, rfl⟩
  · exact ⟨pool.ref, pool.free, pool.putZero, rfl⟩

theorem pagePut_outgrown (page : Nat) (pool : PagePool) (already : outgrown window pool) :
    outgrown window (pagePut page pool).2 := by
  obtain ⟨ref, free, putZero, after⟩ := pagePut_pool page pool
  rw [after]
  exact already

section Lost

variable {lost : PagePool → Prop} (putLost : ∀ page pool, lost pool → lost (pagePut page pool).2)

include putLost

theorem freeHelper_lost (slot : PteRef) (va : Nat) (vm : Vm) (already : lost vm.pool) :
    lost (freeHelper slot va vm).2.pool := by
  have after := putLost (paToPage (pteAddr (vm.mem slot.dir slot.index))) vm.pool already
  unfold freeHelper
  dsimp only
  split
  · split
    all_goals
      rename_i outcome
      rw [outcome] at after
      exact after
  · exact already

theorem vmFree_lost (root : PhysAddr) (vm : Vm) (already : lost vm.pool) :
    lost (vmFree root vm).2.pool := by
  have walk : ∀ level vm, lost vm.pool →
      lost (pageWalk freeHelper .none level root vaStart vaEnd vm).2.pool := fun level vm before =>
    pageWalk_lost (freeHelper_lost putLost) (Or.inl rfl) level root _ _ vm before
  have first := walk 2 vm already
  unfold vmFree
  split
  · rename_i middle walked
    rw [walked] at first
    have second := walk 1 middle first
    split
    · rename_i last walkedAgain
      rw [walkedAgain] at second
      exact putLost _ _ second
    · rename_i last died
      rw [died] at second
      exact second
  · rename_i middle died
    rw [died] at first
    exact first

end Lost

/-- `dune_vm_free` of a clone gives up the whole tree. -/
theorem vmFree_accounted (windowBound : window ≤ maxPages) {vm : Vm} {page : Nat} {leaves : Bool}
    (pageBound : page < window)
    (accounted : Accounted window (⟨3, pageToPa page, leaves⟩ :: live) vm) :
    Accounted window live (vmFree (pageToPa page) vm).2 := by
  have first := freeWalk_accounted windowBound (accounted.lower windowBound true)
  unfold vmFree
  split
  · rename_i vm1 walked
    rw [walked] at first
    have second := freeWalk_accounted windowBound (first.lower windowBound true)
    split
    · rename_i vm2 walkedAgain
      rw [walkedAgain] at second
      obtain ⟨next, put, last⟩ := putPage_accounted windowBound pageBound second
      rw [put]
      exact last
    · rename_i vm2 died
      rw [died] at second
      exact second.drop
  · rename_i vm1 died
    rw [died] at first
    exact first.drop

/-- The state after the walk of `dune_vm_clone`, with the new root live. -/
theorem cloneWalk_accounted (windowBound : window ≤ maxPages) {vm : Vm} {page : Nat}
    {leavesNew : Bool} (exactPool : leavesNew = true → window < 2 ^ 19)
    (accounted : Accounted window live vm) (member : tree ∈ live) (top : tree.level = 3)
    (leaves : tree.leaves = true) (pageBound : page < window)
    (unused : uses vm.mem live page = 0) (referenced : refOf vm.pool page = 1) :
    outgrown window (pageWalk (cloneHelper (pageToPa page)) .none 3 tree.root vaStart vaEnd
        (vm.clearPage (pageToPa page))).2.pool ∨
      Accounted window (⟨3, pageToPa page, leavesNew⟩ :: live)
        (pageWalk (cloneHelper (pageToPa page)) .none 3 tree.root vaStart vaEnd
          (vm.clearPage (pageToPa page))).2 := by
  have planted := accounted.plant windowBound pageBound unused referenced 3 leavesNew
  have newMember : (⟨3, pageToPa page, leavesNew⟩ : Tree) ∈
      (⟨3, pageToPa page, leavesNew⟩ : Tree) :: live := by simp
  have rule := cloneHelper_walkKeeps windowBound newMember rfl exactPool
    (List.mem_cons_of_mem _ member) leaves
  have rootTable := tree.rootTable (vm.clearPage (pageToPa page)).mem
  rw [top] at rootTable
  exact (rule.pageWalk 3 tree.root vaStart vaEnd _ planted rootTable).imp_right And.left

end RdmaPaging
