import RdmaPaging.VmRoots
import RdmaPaging.VmSweep

/-!
Cloning an address space. The walk of `dune_vm_clone` visits the leaves of the old root in
the order of addresses and enters each one as a 4 KB entry under the new root, so up to
the address it has come to the new root holds a copy of every 4 KB entry, and of a big
entry only the first page.
-/

namespace RdmaPaging

open RadixTree

/-- The 4 KB entry that the clone gets for `va`. -/
def cloneTarget (mem : PhysAddr → Nat → Ptent) : Nat → PhysAddr → Nat → Ptent
  | 0, dir, va => mem dir (pdx 0 va)
  | level + 1, dir, va =>
      let pte := mem dir (pdx (level + 1) va)
      if bigSlot (level + 1) .none pte then
        if va % entrySpan (level + 1) < entrySpan 0 then pte else 0
      else if ptePresent pte then cloneTarget mem level (pteAddr pte) va
      else 0

/-- The 4 KB entry of `va` under a root without big pages. -/
def leafWord (mem : PhysAddr → Nat → Ptent) (root : PhysAddr) (va : Nat) : Ptent :=
  wordAt tableOf 0 mem (fun level => pdx level va) 3 root

/-- The walk of a clone has come to the address `done`. -/
structure CloneInv (before : Vm) (root new : PhysAddr) (done : Nat) (vm : Vm) : Prop
    extends Grounded entryBuilt [treeOf new, treeOf root] vm where
  apart : new ≠ root
  plain : Forest entryTable vm.mem [treeOf new]
  origin : ∀ page ∈ vm.pool.free, page ∈ before.pool.free ∨ before.pool.numPages ≤ page
  grown : before.pool.numPages ≤ vm.pool.numPages
  inWindow : vm.pool.numPages ≤ maxPages
  held : ∀ low dir, (treeOf new).Table vm.mem low dir → ∃ page < vm.pool.numPages,
    dir = pageToPa page ∧ 1 ≤ refOf vm.pool page ∧
      (page ∈ before.pool.free ∨ before.pool.numPages ≤ page)
  same : ∀ low dir, (treeOf root).Table before.mem low dir → ∀ index < nptentries,
    vm.mem dir index = before.mem dir index
  words : ∀ va < 2 ^ 48, leafWord vm.mem new va =
    if va < done then cloneTarget before.mem 3 root va else 0

theorem cloneHelper_exhausted (newRoot : PhysAddr) (slot : PteRef) (va : Nat) (vm : Vm)
    (already : exhausted vm.pool) : exhausted (cloneHelper newRoot slot va vm).2.pool := by
  obtain ⟨ref, pool⟩ := cloneHelper_pool newRoot slot va vm
  rw [pool]
  exact vmLookup_lost allocPage_exhausted newRoot va vm already

section Steps

variable {before vm : Vm} {root new : PhysAddr} {done : Nat}

theorem CloneInv.trees_apart (inv : CloneInv before root new done vm) : treeOf root ≠ treeOf new := by
  intro same
  exact inv.apart (congrArg Tree.root same).symm

theorem new_live {new root : PhysAddr} : treeOf new ∈ [treeOf new, treeOf root] := by simp

theorem root_live {new root : PhysAddr} : treeOf root ∈ [treeOf new, treeOf root] := by simp

theorem copies_new_le (mem : PhysAddr → Nat → Ptent) (new root page : PhysAddr) :
    copies mem [treeOf new] page ≤ copies mem [treeOf new, treeOf root] page := by
  rw [copies, copies, total_cons, total_cons]
  exact Nat.add_le_add_left (Nat.zero_le _) _

/-- The tables of the old root are where they were. -/
theorem CloneInv.root_table (inv : CloneInv before root new done vm) {low : Nat} {dir : PhysAddr} :
    (treeOf root).Table before.mem low dir ↔ (treeOf root).Table vm.mem low dir := by
  have agree : ∀ lower table, (treeOf root).Table before.mem (lower + 1) table →
      ∀ index < nptentries, vm.mem table index = before.mem table index :=
    fun lower table => inv.same (lower + 1) table
  exact ⟨fun inside => Within.congr inside agree, fun inside => Within.of_congr inside agree⟩

/-- A table of the new root is none of the old one. -/
theorem CloneInv.new_ne_root (inv : CloneInv before root new done vm) {low lower : Nat}
    {dir other : PhysAddr} (table : (treeOf new).Table vm.mem low dir)
    (otherTable : (treeOf root).Table before.mem lower other) : other ≠ dir := by
  rintro rfl
  exact inv.trees_apart
    (inv.forest.table_unique new_live root_live table (inv.root_table.mp otherTable)).1

section Install

variable (inv : CloneInv before root new done vm) {page low index : Nat} {pool : PagePool}
variable {dir : PhysAddr} (taken : Taken vm.pool page pool) (small : pool.numPages ≤ maxPages)
variable (table : (treeOf new).Table vm.mem (low + 1) dir) (bound : index < nptentries)
variable (empty : tableOf low (vm.mem dir index) = none)

include inv taken small table bound empty

theorem CloneInv.install_words (va : Nat) :
    leafWord (installed vm.mem dir index (pageToPa page)) new va = leafWord vm.mem new va := by
  have unused := inv.toGrounded.unused taken small
  have different := table.ne_of_copies new_live unused
  refine wordAt_grown (fun level => tableOf_zero level) (fun level => pdx_bound level va)
    fun lower inner position inside inRange => ?_
  by_cases stored : inner = dir ∧ position = index
  · obtain ⟨rfl, rfl⟩ := stored
    have level := (inv.forest.table_unique new_live new_live table inside).2
    refine Or.inr ⟨low, pageToPa page, level, empty, ?_, fun other _ => installed_page different⟩
    rw [installed, setWord, if_pos ⟨rfl, rfl⟩, tableOf_table, taken.aligned small]
  · left
    rw [installed, setWord, if_neg stored,
      cleared_agree unused (treeOf new) new_live lower inner inside position inRange]

theorem CloneInv.install :
    CloneInv before root new done
      (installTable { vm with pool := pool } ⟨dir, index⟩ (pageToPa page)) := by
  have unused := inv.toGrounded.unused taken small
  have aligned := taken.aligned small
  have unusedNew : copies vm.mem [treeOf new] (pageToPa page) = 0 := by
    have atMost := copies_new_le vm.mem new root (pageToPa page)
    omega
  have newAlone : treeOf new ∈ [treeOf new] := by simp
  refine {
    toGrounded := inv.toGrounded.install taken small entryBuilt_zero entryBuilt_table new_live table
      bound empty
    apart := inv.apart
    plain := inv.plain.install newAlone table bound empty unusedNew aligned entryTable_zero
      entryTable_table
    origin := fun other listed => ?_
    grown := Nat.le_trans inv.grown taken.grows
    inWindow := small
    held := fun lower inner inside => ?_
    same := fun lower inner inside position inRange => ?_
    words := fun va canonical => ?_ }
  · rcases (taken.rest other listed).2 with old | outside
    · exact inv.origin other old
    · exact Or.inr (Nat.le_trans inv.grown outside)
  · rcases inv.plain.of_installed_table newAlone table bound empty unusedNew aligned newAlone
      inside with old | isPage
    · obtain ⟨holder, inPool, isHolder, referenced, origin⟩ := inv.held lower inner old
      refine ⟨holder, Nat.lt_of_lt_of_le inPool taken.grows, isHolder, ?_, origin⟩
      show 1 ≤ refOf pool holder
      rw [taken.refs holder]
      exact Nat.le_trans referenced (Nat.le_add_right _ _)
    · refine ⟨page, taken.inPool, isPage, ?_, ?_⟩
      · show 1 ≤ refOf pool page
        rw [taken.refs page, if_pos rfl]
        exact Nat.le_add_left _ _
      · rcases taken.source with listed | outside
        · exact inv.origin page listed
        · exact Or.inr (Nat.le_trans inv.grown outside)
  · have notDir := inv.new_ne_root table inside
    have notPage := (inv.root_table.mp inside).ne_of_copies root_live unused
    rw [installTable_mem, installed, setWord, if_neg (fun stored => notDir stored.1), cleared,
      if_neg notPage]
    exact inv.same lower inner inside position inRange
  · rw [installTable_mem, inv.install_words taken small table bound empty]
    exact inv.words va canonical

end Install

/-- Lookups under the new root keep what is cloned. -/
theorem clone_installKeeps (before : Vm) (root new : PhysAddr) (done : Nat) :
    InstallKeeps exhausted (CloneInv before root new done) (fun _ => False)
      [treeOf new, treeOf root] (treeOf new) := by
  refine installKeeps_of_taken (fun vm inv => inv.list) ?_
  intro vm low dir index page pool inv taken small table bound empty
  refine ⟨inv.install taken small table bound empty, ?_⟩
  exact inv.forest.install_extends new_live table bound empty (inv.toGrounded.unused taken small)
    (taken.aligned small)

theorem entrySpan_zero : entrySpan 0 = 4096 := by decide

/-- Two canonical addresses with the same indices lie on one page. -/
theorem same_page_of_pdx {va other : Nat} (canonical : va < 2 ^ 48) (otherCanonical : other < 2 ^ 48)
    (bottom : pdx 0 other = pdx 0 va) (upper : ∀ low < 3, pdx (low + 1) other = pdx (low + 1) va) :
    other / 4096 = va / 4096 := by
  have first := upper 0 (by decide)
  have second := upper 1 (by decide)
  have third := upper 2 (by decide)
  simp only [pdx, pgshift, nptentries] at bottom first second third
  norm_num at bottom first second third
  omega

theorem pdx_same_page {va other : Nat} (same : other / 4096 = va / 4096) (level : Nat) :
    pdx level other = pdx level va := by
  have span : 2 ^ (pgshift + 9 * level) = 4096 * 2 ^ (9 * level) := by rw [Nat.pow_add, pgshift]
  rw [pdx, pdx, span, ← Nat.div_div_eq_div_mul, ← Nat.div_div_eq_div_mul, same]

/-- A 4 KB entry stored under the new root is seen at the addresses of its page. -/
theorem leafWord_store {entryOk : Nat → Ptent → Prop} {mem : PhysAddr → Nat → Ptent}
    {leaf : PhysAddr} {va other : Nat} (forest : Forest entryOk mem [treeOf new]) (leads : leafTable mem new va = some leaf)
    (canonical : va < 2 ^ 48) (otherCanonical : other < 2 ^ 48) (pte : Ptent) :
    leafWord (setWord mem leaf (pdx 0 va) pte) new other =
      if other / 4096 = va / 4096 then pte else leafWord mem new other := by
  have alone : treeOf new ∈ [treeOf new] := by simp
  have table : (treeOf new).Table mem 0 leaf := leafTable_table rfl leads
  have bottom : ∀ low, ¬ Within nptentries tableOf mem 3 new (low + 1) leaf := by
    intro low inside
    have level := (forest.table_unique alone alone table inside).2
    omega
  have stored : leafWord (setWord mem leaf (pdx 0 va) pte) new other = _ :=
    wordAt_setWord (pdx 0 va) pte (fun level => pdx_bound level other) bottom
  rw [stored]
  by_cases page : other / 4096 = va / 4096
  · have route : (fun level => pdx level other) = fun level => pdx level va :=
      funext fun level => pdx_same_page page level
    have reaches : reach tableOf mem (fun level => pdx level other) 3 new = some leaf := by
      rw [route]
      exact leads
    rw [if_pos page, if_pos ⟨reaches, pdx_same_page page 0⟩]
  · rw [if_neg page, if_neg]
    · rfl
    · rintro ⟨reaches, position⟩
      refine page (same_page_of_pdx canonical otherCanonical position ?_)
      have once : occurrences nptentries tableOf mem leaf (treeOf new).level (treeOf new).root ≤ 1 :=
        Nat.le_trans (occurrences_le_copies alone) (forest.distinct leaf)
      exact reach_unique (fun level => pdx_bound level other) (fun level => pdx_bound level va) once
        reaches leads

/-- A copied entry, and blank entries up to the end of what it spanned. -/
theorem CloneInv.store {va span : Nat} {leaf : PhysAddr} {pte : Ptent} {pool : PagePool}
    (inv : CloneInv before root new va vm) (leads : leafTable vm.mem new va = some leaf)
    (pooled : ∃ ref, pool = { vm.pool with ref := ref })
    (more : ∀ page, refOf vm.pool page ≤ refOf pool page)
    (aligned : 4096 ∣ va) (wide : 4096 ≤ span) (canonical : va + span ≤ 2 ^ 48)
    (first : ∀ other, va ≤ other → other < va + 4096 → cloneTarget before.mem 3 root other = pte)
    (rest : ∀ other, va + 4096 ≤ other → other < va + span → cloneTarget before.mem 3 root other = 0) :
    CloneInv before root new (va + span)
      (Vm.setPte { vm with pool := pool } ⟨leaf, pdx 0 va⟩ pte) := by
  have alone : treeOf new ∈ [treeOf new] := by simp
  have table : (treeOf new).Table vm.mem 0 leaf := leafTable_table rfl leads
  have bound := pdx_bound 0 va
  obtain ⟨ref, rfl⟩ := pooled
  refine {
    toGrounded := inv.toGrounded.setLeaf new_live table bound pte ref
    apart := inv.apart
    plain := inv.plain.setLeaf alone table bound pte
    origin := inv.origin
    grown := inv.grown
    inWindow := inv.inWindow
    held := fun low dir inside => ?_
    same := fun low dir inside index inRange => ?_
    words := fun other otherCanonical => ?_ }
  · obtain ⟨page, inPool, isPage, referenced, origin⟩ :=
      inv.held low dir (inv.plain.of_setLeaf_table alone table pte alone inside)
    exact ⟨page, inPool, isPage, Nat.le_trans referenced (more page), origin⟩
  · have notLeaf := inv.new_ne_root table inside
    show setWord vm.mem leaf (pdx 0 va) pte dir index = _
    rw [setWord, if_neg (fun stored => notLeaf stored.1)]
    exact inv.same low dir inside index inRange
  · show leafWord (setWord vm.mem leaf (pdx 0 va) pte) new other = _
    rw [leafWord_store inv.plain leads (by omega) otherCanonical, inv.words other otherCanonical]
    by_cases page : other / 4096 = va / 4096
    · rw [if_pos page, if_pos (by omega), first other (by omega) (by omega)]
    · rw [if_neg page]
      by_cases early : other < va
      · rw [if_pos early, if_pos (by omega)]
      · rw [if_neg early]
        by_cases inside : other < va + span
        · rw [if_pos inside, rest other (by omega) inside]
        · rw [if_neg inside]

/-- Nothing is copied where nothing is to be. -/
theorem CloneInv.skip {va span : Nat} (inv : CloneInv before root new va vm)
    (blank : ∀ other, va ≤ other → other < va + span → cloneTarget before.mem 3 root other = 0) :
    CloneInv before root new (va + span) vm := by
  refine { inv with words := fun other canonical => ?_ }
  rw [inv.words other canonical]
  by_cases early : other < va
  · rw [if_pos early, if_pos (by omega)]
  · rw [if_neg early]
    by_cases inside : other < va + span
    · rw [if_pos inside, blank other (by omega) inside]
    · rw [if_neg inside]

/-- The outcome of a part of the walk that ends at `done`. -/
def CloneRuns (before : Vm) (root new : PhysAddr) (done : Nat) (result : Option Int × Vm) : Prop :=
  exhausted result.2.pool ∨ result.1 = some 0 ∧ CloneInv before root new done result.2

theorem cloneEntry_runs {va span : Nat} {leaf dir : PhysAddr} {index : Nat}
    (inv : CloneInv before root new va vm) (leads : leafTable vm.mem new va = some leaf)
    (aligned : 4096 ∣ va) (wide : 4096 ≤ span) (canonical : va + span ≤ 2 ^ 48)
    (first : ∀ other, va ≤ other → other < va + 4096 →
      cloneTarget before.mem 3 root other = vm.mem dir index)
    (rest : ∀ other, va + 4096 ≤ other → other < va + span → cloneTarget before.mem 3 root other = 0) :
    CloneRuns before root new (va + span)
      (cloneEntry (paToPage (pteAddr (vm.mem dir index))) (vm.mem dir index) ⟨leaf, pdx 0 va⟩ vm) := by
  unfold cloneEntry
  split
  · rename_i fromPool
    obtain ⟨page, inPool, mapped, isPage⟩ := pageIsFromPool_page inv.inWindow fromPool
    rw [isPage, pageGet, if_pos inPool]
    refine Or.inr ⟨rfl, inv.store leads ⟨_, rfl⟩ (fun other => ?_) aligned wide canonical first rest⟩
    simp only [refOf, Function.update_apply]
    split
    · split
      · rename_i same
        rw [same]
        exact Nat.le_succ _
      · exact Nat.le_refl _
    · exact Nat.le_refl _
  · exact Or.inr ⟨rfl, inv.store leads ⟨vm.pool.ref, rfl⟩ (fun _ => Nat.le_refl _) aligned wide
      canonical first rest⟩

/-- The callback copies the entry it is called with. -/
theorem cloneHelper_runs {va span low : Nat} {dir : PhysAddr} {index : Nat}
    (inv : CloneInv before root new va vm) (table : (treeOf root).Table before.mem low dir)
    (bound : index < nptentries)
    (aligned : 4096 ∣ va) (wide : 4096 ≤ span) (canonical : va + span ≤ 2 ^ 48)
    (first : ∀ other, va ≤ other → other < va + 4096 →
      cloneTarget before.mem 3 root other = before.mem dir index)
    (rest : ∀ other, va + 4096 ≤ other → other < va + span → cloneTarget before.mem 3 root other = 0) :
    CloneRuns before root new (va + span) (cloneHelper new ⟨dir, index⟩ va vm) := by
  have looked : LookupKeeps _ _ _ _ vm (vmLookup (treeOf new).root va .normal vm) _ :=
    (clone_installKeeps before root new va).vmLookup new_live rfl (by simp)
      (fun vm inv low dir index table bound => by
        have small := (inv.plain.entries (treeOf new) (by simp) low dir index table bound).small
        simp [bigSlot, small]) inv va
  rcases looked with gone | ⟨_, gone | ⟨impossible, _⟩⟩ | ⟨slot, next, result, later, _, leads, position⟩
  · obtain ⟨ref, pool⟩ := cloneHelper_pool new ⟨dir, index⟩ va vm
    left
    rw [pool]
    exact gone
  · obtain ⟨ref, pool⟩ := cloneHelper_pool new ⟨dir, index⟩ va vm
    left
    rw [pool]
    exact gone
  · exact impossible.elim
  · have found : vmLookup new va .normal vm = (some (some slot), next) := result
    have word : vm.mem dir index = next.mem dir index := by
      rw [inv.same low dir table index bound, later.same low dir table index bound]
    obtain ⟨leaf, place⟩ := slot
    obtain rfl : place = pdx 0 va := position
    unfold cloneHelper
    dsimp only
    rw [found]
    dsimp only
    rw [word]
    refine cloneEntry_runs later leads aligned wide canonical (fun other low high => ?_) rest
    rw [later.same _ dir table index bound]
    exact first other low high

theorem mod_entrySpan {level va other : Nat} (aligned : entrySpan level ∣ va) (low : va ≤ other)
    (high : other < va + entrySpan level) : other % entrySpan level = other - va := by
  obtain ⟨times, rfl⟩ := aligned
  have value : other = entrySpan level * times + (other - entrySpan level * times) := by omega
  rw [value, Nat.mul_add_mod, Nat.mod_eq_of_lt (by omega)]
  omega

theorem Sweep.entry_aligned {level startVa endVa : Nat} (sweep : Sweep level startVa endVa)
    (index : Nat) : entrySpan level ∣ startVa + index * entrySpan level :=
  Nat.dvd_add (Nat.dvd_trans (entrySpan_dvd (Nat.le_succ _)) sweep.aligned) (Nat.dvd_mul_left _ _)

theorem cloneLeaf_runs {dir : PhysAddr} {startVa endVa index : Nat}
    (table : (treeOf root).Table before.mem 0 dir) (sweep : Sweep 0 startVa endVa)
    (target : ∀ va, startVa ≤ va → va < startVa + entrySpan 1 →
      cloneTarget before.mem 3 root va = cloneTarget before.mem 0 dir va)
    (bound : index < nptentries) (inv : CloneInv before root new (startVa + index * entrySpan 0) vm) :
    CloneRuns before root new (startVa + (index + 1) * entrySpan 0)
      (walkLeaf (cloneHelper new) .none dir startVa index vm) := by
  have within := entry_end startVa 0 bound
  have canonical := sweep.canonical
  have next : startVa + (index + 1) * entrySpan 0 = startVa + index * entrySpan 0 + entrySpan 0 := by
    rw [Nat.add_mul, Nat.one_mul, Nat.add_assoc]
  have word : ∀ va, startVa + index * entrySpan 0 ≤ va → va < startVa + (index + 1) * entrySpan 0 →
      cloneTarget before.mem 3 root va = before.mem dir index := by
    intro va low high
    rw [target va (Nat.le_trans (Nat.le_add_right _ _) low) (Nat.lt_of_lt_of_le high within),
      cloneTarget, pdx_inside sweep.aligned bound low high]
  have stored := inv.same 0 dir table index bound
  unfold walkLeaf
  rw [sweep.curVa, stored]
  rw [next] at word within ⊢
  split
  · refine cloneHelper_runs inv table bound (sweep.entry_aligned index) (Nat.le_refl _) (by omega) word ?_
    rw [entrySpan_zero]
    intro other low high
    omega
  · rename_i notVisited
    have isZero : before.mem dir index = 0 := by simpa using notVisited
    refine Or.inr ⟨rfl, inv.skip fun other low high => ?_⟩
    rw [word other low high, isZero]

theorem cloneUpper_runs {below : PhysAddr → Nat → Nat → Vm → Option Int × Vm} {dir : PhysAddr}
    {level startVa endVa index : Nat} (table : (treeOf root).Table before.mem (level + 1) dir)
    (sweep : Sweep (level + 1) startVa endVa)
    (target : ∀ va, startVa ≤ va → va < startVa + entrySpan (level + 2) →
      cloneTarget before.mem 3 root va = cloneTarget before.mem (level + 1) dir va)
    (belowRuns : ∀ dir startVa endVa vm, (treeOf root).Table before.mem level dir →
      Sweep level startVa endVa →
      (∀ va, startVa ≤ va → va < startVa + entrySpan (level + 1) →
        cloneTarget before.mem 3 root va = cloneTarget before.mem level dir va) →
      CloneInv before root new startVa vm →
      CloneRuns before root new (startVa + entrySpan (level + 1)) (below dir startVa endVa vm))
    (bound : index < nptentries)
    (inv : CloneInv before root new (startVa + index * entrySpan (level + 1)) vm) :
    CloneRuns before root new (startVa + (index + 1) * entrySpan (level + 1))
      (walkEntry (cloneHelper new) .none (level + 1) below dir startVa endVa index vm) := by
  have within := entry_end startVa (level + 1) bound
  have canonical := sweep.canonical
  have aligned := sweep.entry_aligned index
  have page : 4096 ∣ entrySpan (level + 1) := entrySpan_dvd (Nat.zero_le _)
  have pos := entrySpan_pos (level + 1)
  have next : startVa + (index + 1) * entrySpan (level + 1) =
      startVa + index * entrySpan (level + 1) + entrySpan (level + 1) := by
    rw [Nat.add_mul, Nat.one_mul, Nat.add_assoc]
  have entry : ∀ va, startVa + index * entrySpan (level + 1) ≤ va →
      va < startVa + (index + 1) * entrySpan (level + 1) →
      cloneTarget before.mem 3 root va =
        if bigSlot (level + 1) .none (before.mem dir index) then
          if va % entrySpan (level + 1) < entrySpan 0 then before.mem dir index else 0
        else if ptePresent (before.mem dir index) then
          cloneTarget before.mem level (pteAddr (before.mem dir index)) va
        else 0 := by
    intro va low high
    rw [target va (Nat.le_trans (Nat.le_add_right _ _) low) (Nat.lt_of_lt_of_le high within),
      cloneTarget, pdx_inside sweep.aligned bound low high]
  have stored := inv.same _ dir table index bound
  unfold walkEntry
  dsimp only
  rw [sweep.entry_start, sweep.curVa, stored]
  rw [next] at entry within ⊢
  split
  · rename_i big
    simp only [big, if_true] at entry
    refine cloneHelper_runs inv table bound (Nat.dvd_trans page aligned) (Nat.le_of_dvd pos page)
      (by omega) (fun other low high => ?_) fun other low high => ?_
    · have inEntry := Nat.le_of_dvd pos page
      rw [entry other low (by omega), mod_entrySpan aligned low (by omega), entrySpan_zero,
        if_pos (by omega)]
    · rw [entry other (by omega) high, mod_entrySpan aligned (by omega) high, entrySpan_zero,
        if_neg (by omega)]
  · rename_i small
    simp only [small] at entry
    split
    · rename_i present
      simp only [present, if_true] at entry
      apply belowRuns _ _ _ vm _ (sweep.below bound) entry inv
      exact Within.step table bound (tableOf_present (by simpa using small) present)
    · rename_i absent
      simp only [absent] at entry
      exact Or.inr ⟨rfl, inv.skip entry⟩

theorem cloneLoop_runs {body : Nat → Vm → Option Int × Vm} {level startVa endVa : Nat}
    (sweep : Sweep level startVa endVa)
    (bodyLost : ∀ index vm, exhausted vm.pool → exhausted (body index vm).2.pool)
    (bodyRuns : ∀ index vm, index < nptentries →
      CloneInv before root new (startVa + index * entrySpan level) vm →
      CloneRuns before root new (startVa + (index + 1) * entrySpan level) (body index vm))
    (inv : CloneInv before root new startVa vm) :
    CloneRuns before root new (startVa + entrySpan (level + 1))
      (walkLoop body (walkIndices level startVa endVa) vm) := by
  have begun : CloneInv before root new (startVa + 0 * entrySpan level) vm := by
    rw [Nat.zero_mul]
    exact inv
  have loop := walkLoop_moves exhausted
    (fun index => CloneInv before root new (startVa + index * entrySpan level)) bodyLost nptentries 0
    (fun index vm _ bound reached => bodyRuns index vm (by omega) reached) vm begun
  rw [Nat.zero_add, ← entrySpan_succ] at loop
  rw [sweep.indices]
  exact loop

/-- The walk of a clone over all that a table of the old root spans. -/
theorem cloneWalk_runs (level : Nat) (dir : PhysAddr) (startVa endVa : Nat) (vm : Vm)
    (table : (treeOf root).Table before.mem level dir) (sweep : Sweep level startVa endVa)
    (target : ∀ va, startVa ≤ va → va < startVa + entrySpan (level + 1) →
      cloneTarget before.mem 3 root va = cloneTarget before.mem level dir va)
    (inv : CloneInv before root new startVa vm) :
    CloneRuns before root new (startVa + entrySpan (level + 1))
      (pageWalk (cloneHelper new) .none level dir startVa endVa vm) := by
  induction level generalizing dir startVa endVa vm with
  | zero =>
      refine cloneLoop_runs sweep (fun index vm already => ?_) (fun index vm bound reached => ?_) inv
      · unfold walkLeaf
        split
        · exact cloneHelper_exhausted _ _ _ vm already
        · exact already
      · exact cloneLeaf_runs table sweep target bound reached
  | succ level ih =>
      refine cloneLoop_runs sweep (fun index vm already => ?_) (fun index vm bound reached => ?_) inv
      · exact walkEntry_lost (cloneHelper_exhausted new) (Or.inl rfl)
          (pageWalk_lost (cloneHelper_exhausted new) (Or.inl rfl) level) _ _ _ _ _ vm already
      · exact cloneUpper_runs table sweep target ih bound reached

end Steps

/-- The empty new root. -/
theorem RootBuilt.plant {vm : Vm} {root : PhysAddr} (built : RootBuilt vm root) {page : Nat}
    {pool : PagePool} (taken : Taken vm.pool page pool) (small : pool.numPages ≤ maxPages) :
    CloneInv vm root (pageToPa page) 0 (Vm.clearPage { vm with pool := pool } (pageToPa page)) := by
  have unused := Grounded.unused built taken small
  have rootAlone : treeOf root ∈ [treeOf root] := by simp
  have onlyNew : ∀ low dir, (treeOf (pageToPa page)).Table (cleared vm.mem (pageToPa page)) low dir →
      dir = pageToPa page := fun low dir inside =>
    Within.of_blank inside (fun index _ => if_pos rfl) fun level => tableOf_zero level
  have noTrees : Forest entryTable vm.mem [] := ⟨fun _ => Nat.zero_le _, by simp⟩
  refine {
    toGrounded := Grounded.plant built taken small entryBuilt_zero 3 true
    apart := (Tree.rootTable (treeOf root) vm.mem).ne_of_copies rootAlone unused |>.symm
    plain := noTrees.plant rfl 3 true entryTable_zero
    origin := fun other listed => (taken.rest other listed).2
    grown := taken.grows
    inWindow := small
    held := fun low dir inside => ?_
    same := fun low dir inside index inRange => ?_
    words := fun va canonical => ?_ }
  · refine ⟨page, taken.inPool, onlyNew low dir inside, ?_, taken.source⟩
    show 1 ≤ refOf pool page
    rw [taken.refs page, if_pos rfl]
    exact Nat.le_add_left _ _
  · exact cleared_agree unused (treeOf root) rootAlone low dir inside index inRange
  · rw [if_neg (Nat.not_lt_zero va)]
    exact wordAt_blank (fun level => tableOf_zero level) (fun level => pdx_bound level va)
      fun index _ => if_pos rfl

theorem pagePut_exhausted (page : Nat) (pool : PagePool) (already : exhausted pool) :
    exhausted (pagePut page pool).2 := by
  obtain ⟨ref, free, putZero, after⟩ := pagePut_pool page pool
  rw [after]
  exact already

/-- A walk that exhausts the pool exhausts the clone. -/
theorem vmClone_exhausted {vm : Vm} {root : PhysAddr} {page : Nat} {pool : PagePool}
    (allocated : allocPage vm = (some (some (pageToPa page)), { vm with pool := pool }))
    (gone : exhausted (pageWalk (cloneHelper (pageToPa page)) .none 3 root vaStart vaEnd
      (Vm.clearPage { vm with pool := pool } (pageToPa page))).2.pool) :
    exhausted (vmClone root vm).2.pool := by
  unfold vmClone
  rw [allocated]
  dsimp only
  generalize pageWalk (cloneHelper (pageToPa page)) .none 3 root vaStart vaEnd
    (Vm.clearPage { vm with pool := pool } (pageToPa page)) = outcome at gone ⊢
  obtain ⟨_ | ret, after⟩ := outcome
  · exact gone
  · dsimp only
    split
    · have freed := vmFree_lost pagePut_exhausted (pageToPa page) after gone
      split
      all_goals
        rename_i outcome
        rw [outcome] at freed
        exact freed
    · exact gone

/-- A clone that does not exhaust the pool allocates a root. -/
theorem vmClone_taken {vm : Vm} {root : PhysAddr} (list : FreeList vm.pool)
    (succeeds : ¬ exhausted (vmClone root vm).2.pool) :
    ∃ page pool, allocPage vm = (some (some (pageToPa page)), { vm with pool := pool }) ∧
      Taken vm.pool page pool ∧ pool.numPages ≤ maxPages := by
  rcases allocPage_taken list with ⟨page, pool, allocated, taken⟩ | ⟨pool, refused, gone⟩
  · refine ⟨page, pool, allocated, taken, ?_⟩
    by_contra large
    have gone : exhausted pool := Or.inr (Nat.lt_of_not_le large)
    exact succeeds (vmClone_exhausted allocated
      (pageWalk_lost (cloneHelper_exhausted _) (Or.inl rfl) 3 root _ _ _ gone))
  · refine absurd ?_ succeeds
    unfold vmClone
    rw [refused]
    exact gone

/-- What `dune_vm_clone` leaves when allocation succeeds. -/
theorem vmClone_cloned {vm : Vm} {root : PhysAddr} (built : RootBuilt vm root)
    (succeeds : ¬ exhausted (vmClone root vm).2.pool) :
    ∃ new, (vmClone root vm).1 = some (some new) ∧
      CloneInv vm root new (2 ^ 48) (vmClone root vm).2 := by
  obtain ⟨page, pool, allocated, taken, small⟩ := vmClone_taken built.list succeeds
  have walked : CloneRuns vm root (pageToPa page) (2 ^ 48)
      (pageWalk (cloneHelper (pageToPa page)) .none 3 root vaStart vaEnd
        (Vm.clearPage { vm with pool := pool } (pageToPa page))) :=
    cloneWalk_runs 3 root vaStart vaEnd _ (Tree.rootTable (treeOf root) vm.mem) sweep_all
      (fun _ _ _ => rfl) (built.plant taken small)
  obtain ⟨zero, inv⟩ := walked.resolve_left fun gone => succeeds (vmClone_exhausted allocated gone)
  unfold vmClone
  rw [allocated]
  dsimp only
  generalize pageWalk (cloneHelper (pageToPa page)) .none 3 root vaStart vaEnd
    (Vm.clearPage { vm with pool := pool } (pageToPa page)) = outcome at zero inv ⊢
  obtain ⟨ret, after⟩ := outcome
  obtain rfl : ret = some 0 := zero
  exact ⟨pageToPa page, rfl, inv⟩

end RdmaPaging
