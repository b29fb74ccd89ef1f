import RdmaPaging.VmTranslation

/-!
What freeing a clone gives back. The two walks of `dune_vm_free` take the root for a table
of level 2 and of level 1, so they put the pages of the tables of level 0 and of level 1.
The pages of level 2 and the pages that the 4 KB entries map are not put.
-/

namespace RdmaPaging

open RadixTree

/-- The reference counts and the free pages are as they were. -/
def Balanced (before after : PagePool) : Prop :=
  (∀ page, refOf after page = refOf before page) ∧ ∀ page, page ∈ after.free ↔ page ∈ before.free

/-- `dune_vm_free` of a clone of `root` gives back all that the clone took. -/
def FreeUndoesClone (root : PhysAddr) (vm : Vm) : Prop :=
  ∃ new freed, (vmClone root vm).1 = some (some new) ∧
    vmFree new (vmClone root vm).2 = (some (), freed) ∧ Balanced vm.pool freed.pool

theorem pagePut_other {page other : Nat} (different : other ≠ page) (pool : PagePool) :
    refOf (pagePut page pool).2 other = refOf pool other := by
  unfold pagePut
  split
  · simp [refOf, Function.update_of_ne different]
  · rfl

theorem entryTable.names {level : Nat} {pte : Ptent} (plain : entryTable level pte) (lower : Nat) :
    tableOf lower pte = if pte = 0 then none else some (pteAddr pte) := by
  have plain' : entryPlain level pte := by
    rcases plain.present_or with isZero | ⟨present, small, _⟩
    · exact Or.inl isZero
    · exact Or.inr ⟨present, small⟩
  exact plain'.names lower

/-! The pages of level 2. -/

section Leak

/-- While a walk frees the tables below the level `bottom`: the tables above keep their
entries, those of the level `bottom` lose some, and a page keeps a reference. -/
structure FreeInv (mem : PhysAddr → Nat → Ptent) (new : PhysAddr) (bottom page : Nat) (vm : Vm) :
    Prop where
  upper : ∀ low dir, (treeOf new).Table mem (low + bottom + 1) dir → ∀ index < nptentries,
    vm.mem dir index = mem dir index
  cleared : ∀ dir, (treeOf new).Table mem bottom dir → ∀ index < nptentries,
    vm.mem dir index = mem dir index ∨ vm.mem dir index = 0
  inWindow : vm.pool.numPages ≤ maxPages
  referenced : 1 ≤ refOf vm.pool page

variable {mem : PhysAddr → Nat → Ptent} {new : PhysAddr} {bottom page level low : Nat} {vm : Vm}
variable {dir table : PhysAddr}

/-- A table met by the walk is one of the clone, at its real level. -/
theorem FreeInv.real_table (plain : Forest entryTable mem [treeOf new])
    (inv : FreeInv mem new bottom page vm)
    (inside : Within nptentries tableOf vm.mem level dir low table)
    (start : (treeOf new).Table mem (level + bottom) dir) :
    (treeOf new).Table mem (low + bottom) table := by
  induction inside with
  | here => exact start
  | under bound enters deeper ih =>
      rename_i level low root below table index
      have higher : (treeOf new).Table mem (level + bottom + 1) root := by
        rw [Nat.add_right_comm]
        exact start
      have entry := plain.entries (treeOf new) (by simp) _ _ _ higher bound
      rw [inv.upper level root higher index bound, entry.names] at enters
      apply ih
      apply Within.step higher bound
      rw [entry.names]
      exact enters

theorem FreeInv.extends {next : Vm} (plain : Forest entryTable mem [treeOf new])
    (start : (treeOf new).Table mem (level + bottom) new) (inv : FreeInv mem new bottom page vm)
    (later : FreeInv mem new bottom page next) :
    Extends [⟨level, new, true⟩] vm.mem next.mem := by
  intro tree member lower top index below inside bound points
  obtain rfl := List.mem_singleton.mp member
  have real : (treeOf new).Table mem (lower + bottom + 1) top := by
    rw [Nat.add_right_comm]
    exact inv.real_table plain inside start
  rw [later.upper lower top real index bound, ← inv.upper lower top real index bound]
  exact points

/-- A walk of `dune_vm_free` does not put a page of level 2. -/
theorem freeWalk_keeps (plain : Forest entryTable mem [treeOf new])
    (start : (treeOf new).Table mem (level + bottom) new)
    (between : 0 < bottom ∧ bottom ≤ 2) (kept : (treeOf new).Table mem 2 (pageToPa page)) :
    WalkKeeps (fun _ => False) (FreeInv mem new bottom page) [⟨level, new, true⟩]
      ⟨level, new, true⟩ freeHelper .none where
  member := by simp
  cbLost := fun _ _ _ already => already
  small := by
    intro vm inv lower top index inside bound
    have real : (treeOf new).Table mem (lower + bottom + 1) top := by
      rw [Nat.add_right_comm]
      exact inv.real_table plain inside start
    have entry := plain.entries (treeOf new) (by simp) _ _ _ real bound
    rw [inv.upper lower top real index bound]
    simp [bigSlot, entry.small]
  leaf := by
    intro vm dir index va inv inside bound visited
    have alone : treeOf new ∈ [treeOf new] := by simp
    have real : (treeOf new).Table mem bottom dir := by
      have raised := inv.real_table plain inside start
      rwa [Nat.zero_add] at raised
    have nonzero : vm.mem dir index ≠ 0 := visited.resolve_left (by simp)
    have word := (inv.cleared dir real index bound).resolve_right nonzero
    obtain ⟨lower, isBottom⟩ : ∃ lower, bottom = lower + 1 := ⟨bottom - 1, by omega⟩
    have higher : (treeOf new).Table mem (lower + 1) dir := isBottom ▸ real
    have entry := plain.entries (treeOf new) alone lower dir index higher bound
    have names : tableOf lower (mem dir index) = some (pteAddr (mem dir index)) := by
      rw [entry.names, if_neg (word ▸ nonzero)]
    have other : pteAddr (mem dir index) ≠ pageToPa page := by
      intro same
      have below := Within.step higher bound names
      rw [same] at below
      have levels := (plain.table_unique alone alone kept below).2
      omega
    have stored : ∀ pool, pool.numPages = vm.pool.numPages → refOf pool page = refOf vm.pool page →
        FreeInv mem new bottom page (Vm.setPte { vm with pool := pool } ⟨dir, index⟩ 0) := by
      intro pool samePages sameRef
      refine ⟨fun lower top above position inRange => ?_, fun top beside position inRange => ?_,
        samePages ▸ inv.inWindow, sameRef ▸ inv.referenced⟩
      · have apart : top ≠ dir := by
          rintro rfl
          have levels := (plain.table_unique alone alone real above).2
          omega
        show (if top = dir ∧ position = index then 0 else vm.mem top position) = _
        rw [if_neg (fun stored => apart stored.1)]
        exact inv.upper lower top above position inRange
      · show (if top = dir ∧ position = index then 0 else vm.mem top position) = _ ∨
          (if top = dir ∧ position = index then 0 else vm.mem top position) = 0
        split
        · exact Or.inr rfl
        · exact inv.cleared top beside position inRange
    have keeps : FreeInv mem new bottom page (freeHelper ⟨dir, index⟩ va vm).2 := by
      unfold freeHelper
      dsimp only
      rw [word]
      split
      · rename_i fromPool
        obtain ⟨put, inPool, mapped, isPage⟩ := pageIsFromPool_page inv.inWindow fromPool
        have different : page ≠ put := by
          rintro rfl
          exact other mapped
        have sameRef := pagePut_other different vm.pool
        have samePages : (pagePut put vm.pool).2.numPages = vm.pool.numPages := by
          obtain ⟨ref, free, putZero, after⟩ := pagePut_pool put vm.pool
          rw [after]
        rw [isPage]
        split
        all_goals
          rename_i outcome
          rw [outcome] at sameRef samePages
        · exact stored _ samePages sameRef
        · exact ⟨inv.upper, inv.cleared, samePages ▸ inv.inWindow, sameRef ▸ inv.referenced⟩
      · exact stored vm.pool rfl rfl
    exact Or.inr ⟨keeps, inv.extends plain start keeps⟩
  tables := Or.inl rfl

/-- `dune_vm_free` leaves a page of level 2 referenced. -/
theorem vmFree_leaks {root : Nat} (plain : Forest entryTable vm.mem [treeOf (pageToPa root)])
    (inWindow : vm.pool.numPages ≤ maxPages) (rootSmall : root < maxPages)
    (kept : (treeOf (pageToPa root)).Table vm.mem 2 (pageToPa page))
    (referenced : 1 ≤ refOf vm.pool page) :
    1 ≤ refOf (vmFree (pageToPa root) vm).2.pool page := by
  have alone : treeOf (pageToPa root) ∈ [treeOf (pageToPa root)] := by simp
  have start : (treeOf (pageToPa root)).Table vm.mem 3 (pageToPa root) :=
    Tree.rootTable (treeOf (pageToPa root)) vm.mem
  have start2 : (treeOf (pageToPa root)).Table vm.mem (2 + 1) (pageToPa root) := start
  have start1 : (treeOf (pageToPa root)).Table vm.mem (1 + 2) (pageToPa root) := start
  have initial : FreeInv vm.mem (pageToPa root) 1 page vm :=
    ⟨fun _ _ _ _ _ => rfl, fun _ _ _ _ => Or.inl rfl, inWindow, referenced⟩
  have first := ((freeWalk_keeps plain start2 (by decide) kept).pageWalk 2 _ vaStart vaEnd vm initial
    (Tree.rootTable ⟨2, pageToPa root, true⟩ vm.mem)).resolve_left id |>.1
  have second : ∀ middle, FreeInv vm.mem (pageToPa root) 1 page middle →
      FreeInv vm.mem (pageToPa root) 2 page
        (pageWalk freeHelper .none 1 (pageToPa root) vaStart vaEnd middle).2 := by
    intro middle inv
    have begun : FreeInv vm.mem (pageToPa root) 2 page middle :=
      ⟨fun low dir inside => inv.upper (low + 1) dir inside,
        fun dir inside index bound => Or.inl (inv.upper 0 dir inside index bound),
        inv.inWindow, inv.referenced⟩
    exact ((freeWalk_keeps plain start1 (by decide) kept).pageWalk 1 _ vaStart vaEnd middle begun
      (Tree.rootTable ⟨1, pageToPa root, true⟩ middle.mem)).resolve_left id |>.1
  unfold vmFree
  split
  · rename_i middle walked
    rw [walked] at first
    have last := second middle first
    split
    · rename_i final walkedAgain
      rw [walkedAgain] at last
      have different : page ≠ root := by
        rintro rfl
        have levels := (plain.table_unique alone alone kept start).2
        omega
      show 1 ≤ refOf (pagePut (paToPage (pageToPa root)) final.pool).2 page
      rw [paToPage_pageToPa (maxPages_small rootSmall), pagePut_other different]
      exact last.referenced
    · rename_i final died
      rw [died] at last
      exact last.referenced
  · rename_i middle died
    rw [died] at first
    exact first.referenced

end Leak

/-! A root without 4 KB entries. -/

section Idle

variable {cb : PageWalkCb}

theorem walkLoop_idle {body : Nat → Vm → Option Int × Vm} {vm : Vm} (indices : List Nat)
    (idle : ∀ index ∈ indices, body index vm = (some 0, vm)) :
    walkLoop body indices vm = (some 0, vm) := by
  induction indices with
  | nil => rfl
  | cons index rest ih =>
      rw [walkLoop, idle index (by simp)]
      exact ih fun other inRest => idle other (by simp [inRest])

/-- A walk meets nothing in a blank table. -/
theorem pageWalk_blank {vm : Vm} {dir : PhysAddr} (level startVa endVa : Nat)
    (blank : ∀ index, vm.mem dir index = 0) :
    pageWalk cb .none level dir startVa endVa vm = (some 0, vm) := by
  cases level with
  | zero =>
      refine walkLoop_idle _ fun index _ => ?_
      simp [walkLeaf, blank]
  | succ level =>
      refine walkLoop_idle _ fun index _ => ?_
      simp [walkEntry, blank, bigSlot]

/-- A walk over all that a table spans meets nothing where no address has a 4 KB entry. -/
theorem pageWalk_idle {vm : Vm} {dir : PhysAddr} {level startVa endVa : Nat}
    (sweep : Sweep level startVa endVa)
    (plain : ∀ low table index, Within nptentries tableOf vm.mem level dir (low + 1) table →
      index < nptentries → entryTable (low + 1) (vm.mem table index))
    (blank : ∀ va, startVa ≤ va → va < startVa + entrySpan (level + 1) →
      cloneTarget vm.mem level dir va = 0) :
    pageWalk cb .none level dir startVa endVa vm = (some 0, vm) := by
  induction level generalizing dir startVa endVa with
  | zero =>
      refine walkLoop_idle _ fun index member => ?_
      have bound := walkIndices_bound member
      have within := entry_end startVa 0 bound
      have pos := entrySpan_pos 0
      rw [Nat.add_mul, Nat.one_mul] at within
      have word := blank (startVa + index * entrySpan 0) (by omega) (by omega)
      rw [cloneTarget, pdx_inside sweep.aligned bound (Nat.le_refl _)
        (by rw [Nat.add_mul, Nat.one_mul]; omega)] at word
      simp [walkLeaf, word]
  | succ level ih =>
      refine walkLoop_idle _ fun index member => ?_
      have bound := walkIndices_bound member
      have within := entry_end startVa (level + 1) bound
      have entry := plain level dir index (.here _ dir) bound
      have slot : bigSlot (level + 1) .none (vm.mem dir index) = false := by
        simp [bigSlot, entry.small]
      unfold walkEntry
      dsimp only
      rw [slot, if_neg (by simp)]
      split
      · rename_i present
        have points := tableOf_present slot present
        rw [sweep.entry_start, sweep.curVa]
        refine ih (sweep.below bound) ?_ fun va low high => ?_
        · exact fun lower table position inside => plain lower table position (.under bound points inside)
        · have inEntry : va < startVa + (index + 1) * entrySpan (level + 1) := by
            rw [Nat.add_mul, Nat.one_mul]
            omega
          have word := blank va (Nat.le_trans (Nat.le_add_right _ _) low)
            (Nat.lt_of_lt_of_le inEntry within)
          rw [cloneTarget, pdx_inside sweep.aligned bound low inEntry] at word
          simpa [slot, present] using word
      · rfl

end Idle

/-- A page that is put right after it was allocated. -/
theorem taken_put {before pool : PagePool} {page : Nat} (taken : Taken before page pool)
    (unreferenced : ∀ page ∈ before.free, refOf before page = 0) :
    ∃ ref, pagePut page pool = (some (), { pool with ref := ref, free := page :: pool.free }) ∧
      ∀ other, refOf (pagePut page pool).2 other = refOf before other := by
  have none : refOf before page = 0 := by
    rcases taken.source with listed | outside
    · exact unreferenced page listed
    · simp [refOf, Nat.not_lt.mpr outside]
  have once : pool.ref page = 1 := by
    have counted := taken.refs page
    rw [none, if_pos rfl, refOf, if_pos taken.inPool] at counted
    exact counted
  have put := pagePut_eq taken.inPool (show pool.ref page ≠ 0 by omega)
  rw [once, if_pos rfl] at put
  refine ⟨_, put, fun other => ?_⟩
  by_cases same : other = page
  · rw [put, same, none]
    simp [refOf]
  · rw [pagePut_other same, taken.refs other, if_neg same, Nat.add_zero]

theorem allocPage_first {vm next : Vm} {page first : Nat} {rest : List Nat} (list : FreeList vm.pool)
    (listed : vm.pool.free = first :: rest)
    (allocated : allocPage vm = (some (some (pageToPa page)), next)) :
    pageToPa page = pageToPa first ∧ next.pool.free = rest := by
  have inPool := list.inPool first (by simp [listed])
  simp only [allocPage, pageAlloc, takeFirst, listed, pageGet, inPool, if_true, Prod.mk.injEq,
    Option.some.injEq] at allocated
  obtain ⟨same, rfl⟩ := allocated
  exact ⟨same.symm, rfl⟩

section Balance

variable {vm : Vm} {root : PhysAddr} (grounded : Grounded entryTable [treeOf root] vm)

include grounded

theorem grounded_target (va : Nat) : cloneTarget vm.mem 3 root va = leafWord vm.mem root va :=
  (plain_target va (grounded.forest.entries (treeOf root) (by simp))).2

/-- Without 4 KB entries the clone is an empty root, and freeing it puts its page. -/
theorem idle_clone_free {page : Nat} {pool : PagePool} (taken : Taken vm.pool page pool)
    (small : pool.numPages ≤ maxPages)
    (allocated : allocPage vm = (some (some (pageToPa page)), { vm with pool := pool }))
    (blank : ∀ va, leafWord vm.mem root va = 0) :
    (vmClone root vm).1 = some (some (pageToPa page)) ∧
      vmFree (pageToPa page) (vmClone root vm).2 = ((pagePut page pool).1,
        Vm.clearPage { vm with pool := (pagePut page pool).2 } (pageToPa page)) := by
  have alone : treeOf root ∈ [treeOf root] := by simp
  have unused := grounded.unused taken small
  have clear := grounded.forest.clear unused
  have entries : ∀ low table index,
      Within nptentries tableOf (cleared vm.mem (pageToPa page)) 3 root (low + 1) table →
      index < nptentries → entryTable (low + 1) (cleared vm.mem (pageToPa page) table index) :=
    clear.entries (treeOf root) alone
  have target : ∀ va, cloneTarget (cleared vm.mem (pageToPa page)) 3 root va = 0 := by
    intro va
    have same : leafWord (cleared vm.mem (pageToPa page)) root va = leafWord vm.mem root va :=
      wordAt_congr (fun level => pdx_bound level va) (cleared_agree unused (treeOf root) alone)
    rw [(plain_target va entries).2]
    exact same.trans (blank va)
  have walked : pageWalk (cloneHelper (pageToPa page)) .none 3 root vaStart vaEnd
      (Vm.clearPage { vm with pool := pool } (pageToPa page)) =
      (some 0, Vm.clearPage { vm with pool := pool } (pageToPa page)) :=
    pageWalk_idle sweep_all entries fun va _ _ => target va
  have cloned : vmClone root vm = (some (some (pageToPa page)),
      Vm.clearPage { vm with pool := pool } (pageToPa page)) := by
    unfold vmClone
    rw [allocated]
    dsimp only
    rw [walked]
    rfl
  have empty : ∀ index, (Vm.clearPage { vm with pool := pool } (pageToPa page)).mem (pageToPa page)
      index = 0 := fun index => if_pos rfl
  refine ⟨congrArg Prod.fst cloned, ?_⟩
  rw [cloned]
  unfold vmFree
  rw [pageWalk_blank 2 vaStart vaEnd empty]
  dsimp only
  rw [pageWalk_blank 1 vaStart vaEnd empty]
  dsimp only
  unfold putPage
  rw [paToPage_pageToPa (maxPages_small (Nat.lt_of_lt_of_le taken.inPool small))]
  rfl

/-- A 4 KB entry of the root costs a page of level 2. -/
theorem clone_free_leaks (unreferenced : ∀ page ∈ vm.pool.free, refOf vm.pool page = 0)
    (succeeds : ¬ exhausted (vmClone root vm).2.pool) {va : Nat}
    (entry : leafWord vm.mem root va ≠ 0) : ¬ FreeUndoesClone root vm := by
  have built : RootBuilt vm root := grounded.weaken fun _ _ => Or.inl
  obtain ⟨new, result, inv⟩ := vmClone_cloned built succeeds
  rintro ⟨other, freed, otherResult, ran, balanced⟩
  rw [result, Option.some.injEq, Option.some.injEq] at otherResult
  subst otherResult
  have canonical : va % 2 ^ 48 < 2 ^ 48 := Nat.mod_lt _ (by decide)
  have word := inv.words (va % 2 ^ 48) canonical
  rw [if_pos canonical, leafWord_canonical, cloneTarget_canonical (by decide),
    grounded_target grounded] at word
  obtain ⟨pdpt, points⟩ : ∃ pdpt, tableOf 2 ((vmClone root vm).2.mem new (pdx 3 va)) = some pdpt := by
    rcases names : tableOf 2 ((vmClone root vm).2.mem new (pdx 3 va)) with _ | pdpt
    · rw [leafWord, wordAt, names] at word
      exact absurd word.symm entry
    · exact ⟨pdpt, rfl⟩
  have start : (treeOf new).Table (vmClone root vm).2.mem 3 new :=
    Tree.rootTable (treeOf new) (vmClone root vm).2.mem
  have upper : (treeOf new).Table (vmClone root vm).2.mem 2 pdpt :=
    Within.step start (pdx_bound 3 va) points
  obtain ⟨rootPage, rootInPool, rfl, _⟩ := inv.held 3 new start
  obtain ⟨page, _, rfl, referenced, origin⟩ := inv.held 2 pdpt upper
  have kept := vmFree_leaks inv.plain inv.inWindow (Nat.lt_of_lt_of_le rootInPool inv.inWindow) upper
    referenced
  have none : refOf vm.pool page = 0 := by
    rcases origin with listed | outside
    · exact unreferenced page listed
    · simp [refOf, Nat.not_lt.mpr outside]
  rw [ran, balanced.1 page, none] at kept
  omega

/-- Freeing a clone undoes it exactly when the pool need not grow and the root has no 4 KB
entry. -/
theorem free_undoes_clone_iff (unreferenced : ∀ page ∈ vm.pool.free, refOf vm.pool page = 0)
    (succeeds : ¬ exhausted (vmClone root vm).2.pool) :
    FreeUndoesClone root vm ↔ vm.pool.free ≠ [] ∧ ∀ va, leafWord vm.mem root va = 0 := by
  by_cases blank : ∀ va, leafWord vm.mem root va = 0
  · obtain ⟨page, pool, allocated, taken, small⟩ := vmClone_taken grounded.list succeeds
    obtain ⟨result, ran⟩ := idle_clone_free grounded taken small allocated blank
    obtain ⟨ref, put, refs⟩ := taken_put taken unreferenced
    rw [put] at ran refs
    constructor
    · rintro ⟨new, freed, newResult, newRan, balanced⟩
      rw [result, Option.some.injEq, Option.some.injEq] at newResult
      subst newResult
      rw [ran, Prod.mk.injEq] at newRan
      obtain ⟨_, rfl⟩ := newRan
      refine ⟨fun empty => ?_, blank⟩
      have listed := (balanced.2 page).mp (List.mem_cons_self ..)
      simp [empty] at listed
    · rintro ⟨nonempty, _⟩
      obtain ⟨first, rest, listed⟩ := List.exists_cons_of_ne_nil nonempty
      obtain ⟨same, remaining⟩ := allocPage_first grounded.list listed allocated
      have isFirst : page = first := by
        have inPool := grounded.list.inPool first (by simp [listed])
        have grows := taken.grows
        exact pageToPa_injective (maxPages_small (Nat.lt_of_lt_of_le taken.inPool small))
          (maxPages_small (by omega)) same
      refine ⟨_, _, result, ran, refs, fun other => ?_⟩
      show other ∈ page :: pool.free ↔ _
      rw [listed, isFirst, show pool.free = rest from remaining]
  · obtain ⟨va, entry⟩ := not_forall.mp blank
    have leaks := clone_free_leaks grounded unreferenced succeeds entry
    exact ⟨fun undone => absurd undone leaks, fun idle => absurd idle.2 blank⟩

end Balance

theorem free_undoes_clone_iff_blank : FreeUndoesClone 0x1000#64 blankVm := by
  obtain ⟨list, unreferenced, _⟩ := pageInit_spec blankVm_pool
  have grounded : Grounded entryTable [treeOf 0x1000#64] blankVm := blank_grounded list (by decide)
  have succeeds : ¬ exhausted (vmClone 0x1000#64 blankVm).2.pool := by
    unfold exhausted outgrown
    decide +kernel
  refine (free_undoes_clone_iff grounded unreferenced succeeds).mpr ⟨by decide +kernel, fun va => ?_⟩
  exact wordAt_blank (fun level => tableOf_zero level) (fun level => pdx_bound level va)
    fun _ _ => rfl

/-- The pool after a clone of one mapped page, and after its free. -/
theorem mapped_clone_free : (vmClone 0x1000#64 mappedVm).1 = some (some (pageToPa 507)) ∧
    refOf mappedVm.pool 506 = 0 ∧
    refOf (vmFree (pageToPa 507) (vmClone 0x1000#64 mappedVm).2).2.pool 506 = 1 := by decide +kernel

theorem clone_free_leaks_mapped :
    ¬ exhausted (vmClone 0x1000#64 mappedVm).2.pool ∧ ¬ FreeUndoesClone 0x1000#64 mappedVm := by
  obtain ⟨root, before, after⟩ := mapped_clone_free
  refine ⟨mappedVm_clones, ?_⟩
  rintro ⟨new, freed, result, ran, balanced⟩
  rw [root, Option.some.injEq, Option.some.injEq] at result
  subst result
  rw [ran, balanced.1 506, before] at after
  omega

end RdmaPaging
