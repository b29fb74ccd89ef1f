import RdmaPaging.VmProtect
import RdmaPaging.VmRange

/-!
The leaf entry of an address: the entry at which the tables for the address end, with its level.
The processor's translation is a function of the leaf entry, a store to a leaf changes the
addresses of one entry, and a new table changes no leaf that is not blank.
-/

namespace RdmaPaging

open RadixTree

variable {mem next : PhysAddr → Nat → Ptent} {root dir : PhysAddr} {vm : Vm}

/-- The level and the word of the leaf entry for `va`. -/
def leafOf (mem : PhysAddr → Nat → Ptent) (root : PhysAddr) (va : Nat) : Nat × Ptent :=
  leafAt tableOf mem (fun level => pdx level va) 3 root

/-- What the processor makes of a leaf entry below tables that take no right away. -/
def leafTranslates (leaf : Nat × Ptent) (va : Nat) : Option Translation :=
  if ptePresent leaf.2 then some (leafTranslation [] leaf.2 (pgshift + 9 * leaf.1) va) else none

theorem leafAt_route {route other : Nat → Nat} {level : Nat} (same : ∀ step ≤ level, other step = route step) :
    leafAt tableOf mem other level dir = leafAt tableOf mem route level dir :=
  leafAt_shared (Nat.zero_le _) fun step _ bound => same step bound

theorem leafOf_canonical (mem : PhysAddr → Nat → Ptent) (root : PhysAddr) (va : Nat) :
    leafOf mem root (va % 2 ^ 48) = leafOf mem root va :=
  leafAt_route fun _ bound => pdx_canonical bound va

theorem translateFrom_leaf {level va : Nat} {above : List Ptent} (built : Built mem level dir)
    (tables : ∀ pte ∈ above, pte = pteAddr pte ||| pteDefFlags) :
    translateFrom mem level dir above va =
      leafTranslates (leafAt tableOf mem (fun level => pdx level va) level dir) va := by
  induction level generalizing dir above with
  | zero =>
      rw [translateFrom, leafAt, leafTranslates, leafTranslation_tables above tables]
      rfl
  | succ level ih =>
      simp only [translateFrom, leafAt, tableOf]
      by_cases present : ptePresent (mem dir (pdx (level + 1) va)) = true
      · rw [if_neg (by simp [present])]
        by_cases slot : bigSlot (level + 1) .none (mem dir (pdx (level + 1) va)) = true
        · rw [if_pos slot, if_pos slot]
          simp only [leafTranslates, present, if_true]
          rw [leafTranslation_tables above tables]
        · have small : bigSlot (level + 1) .none (mem dir (pdx (level + 1) va)) = false := by
            simpa using slot
          obtain ⟨notBig, isTable⟩ := built.table small present
          rw [if_neg slot, if_neg (by simp [notBig]), if_neg slot, if_pos present]
          apply ih (built.below small present)
          intro pte member
          rcases List.mem_cons.mp member with isEntry | old
          · rw [isEntry]
            exact isTable
          · exact tables pte old
      · rw [if_pos present]
        split
        · rename_i below names
          split at names <;> simp at names
        · simp [leafTranslates, present]

/-- The translation of an address is that of its leaf entry. -/
theorem translate_leaf (forest : Forest entryBuilt mem [treeOf root]) (va : Nat) :
    translate mem root va = leafTranslates (leafOf mem root va) va :=
  translateFrom_leaf forest.built (by simp)

/-- An offset in the translated bits is given by its indices down to a level and the rest. -/
theorem number_of_pdx {low x y : Nat} (lowBound : low ≤ 4) (xBound : x < 2 ^ 48) (yBound : y < 2 ^ 48)
    (same : ∀ step, low ≤ step → step ≤ 3 → pdx step x = pdx step y) :
    x / entrySpan low = y / entrySpan low := by
  obtain ⟨steps, top⟩ : ∃ steps, low + steps = 4 := ⟨4 - low, by omega⟩
  induction steps generalizing low with
  | zero =>
      obtain rfl : low = 4 := by omega
      have span : entrySpan 4 = 2 ^ 48 := rfl
      rw [span, Nat.div_eq_of_lt xBound, Nat.div_eq_of_lt yBound]
  | succ steps ih =>
      have above : x / entrySpan (low + 1) = y / entrySpan (low + 1) :=
        ih (by omega) (fun step bound => same step (by omega)) (by omega)
      have here := same low (Nat.le_refl _) (by omega)
      have split : ∀ z, z / entrySpan low = nptentries * (z / entrySpan (low + 1)) + pdx low z := by
        intro z
        rw [entrySpan_succ, Nat.mul_comm nptentries (entrySpan low), ← Nat.div_div_eq_div_mul, pdx_eq,
          Nat.div_add_mod]
      rw [split, split, above, here]

/-! Stores and new tables. -/

section Store

variable {low index : Nat} {pte : Ptent} (grounded : Grounded entryBuilt [treeOf root] vm)

include grounded

theorem Grounded.levels (table : (treeOf root).Table vm.mem low dir) :
    ∀ step, Within nptentries tableOf vm.mem 3 root step dir → step = low := by
  intro step inside
  have alone : treeOf root ∈ [treeOf root] := by simp
  exact (grounded.forest.table_unique alone alone table inside).2

theorem Grounded.once (dir : PhysAddr) : occurrences nptentries tableOf vm.mem dir 3 root ≤ 1 :=
  RootBuilt.distinct grounded dir

/-- A leaf is stored, whatever becomes of the reference counts. -/
theorem Grounded.storeLeaf (table : (treeOf root).Table vm.mem low dir) (bound : index < nptentries)
    (leaf : ∀ lower, low = lower + 1 → tableOf lower pte = none)
    (isBuilt : ∀ lower, low = lower + 1 → entryBuilt low pte) {pool : PagePool}
    (list : FreeList pool) (fresh : ∀ page < maxPages, page ∈ pool.free ∨ pool.numPages ≤ page →
      copies vm.mem [treeOf root] (pageToPa page) = 0) :
    Grounded entryBuilt [treeOf root] (Vm.setPte { vm with pool := pool } ⟨dir, index⟩ pte) := by
  have alone : treeOf root ∈ [treeOf root] := by simp
  have levels := grounded.levels table
  have fewer : ∀ page, copies (setWord vm.mem dir index pte) [treeOf root] page ≤
      copies vm.mem [treeOf root] page := by
    intro page
    have balance := grounded.forest.total_setWord alone table
      (fun _ dir => if dir = page then 1 else 0) (fun _ => 0) bound pte
    have none : part nptentries tableOf (fun _ dir => if dir = page then 1 else 0)
        (fun pte => if (treeOf root).leaves then (0 : Nat) else 0) (setWord vm.mem dir index pte) low pte
        = 0 := by
      cases low with
      | zero => simp [part]
      | succ lower => simp [part, leaf lower rfl]
    rw [none] at balance
    rw [copies, copies]
    omega
  refine ⟨⟨fun page => Nat.le_trans (fewer page) (grounded.forest.distinct page), ?_⟩, list, ?_⟩
  · intro tree member step inner position inside inTable
    obtain rfl := List.mem_singleton.mp member
    have before := Within.of_leaf inside levels leaf
    show entryBuilt (step + 1) (setWord vm.mem dir index pte inner position)
    rw [setWord]
    split
    · rename_i stored
      obtain ⟨rfl, rfl⟩ := stored
      have isLow := levels _ before
      rw [isLow]
      exact isBuilt step isLow.symm
    · exact grounded.forest.entries _ alone step inner position before inTable
  · intro page small free
    have less := fewer (pageToPa page)
    rw [fresh page small free, Nat.le_zero] at less
    exact less

theorem Grounded.store_pointers (table : (treeOf root).Table vm.mem low dir) (index : Nat) (pte : Ptent) :
    PointersFrom root low vm.mem (setWord vm.mem dir index pte) := by
  intro step inner position below above inside _ names
  have apart : inner ≠ dir := by
    rintro rfl
    have isLow := grounded.levels table _ inside
    omega
  rw [setWord, if_neg (by simp [apart])]
  exact names

/-- The addresses whose way goes through an entry. -/
theorem Grounded.route_iff {offset other : Nat} (leads : tableFor vm.mem root low offset = some dir)
    (inside : offset < 2 ^ 48) (otherInside : other < 2 ^ 48) :
    tableAt tableOf vm.mem (fun level => pdx level other) low 3 root = some dir ∧
        pdx low other = pdx low offset ↔
      other / entrySpan low = offset / entrySpan low := by
  have lowBound := tableAt_le leads
  constructor
  · rintro ⟨here, position⟩
    apply number_of_pdx (by omega) otherInside inside
    intro step above bound
    rcases Nat.eq_or_lt_of_le above with rfl | higher
    · exact position
    · exact tableAt_unique (fun level => pdx_bound level other) (fun level => pdx_bound level offset)
        (grounded.once dir) here leads step higher bound
  · intro same
    have route : ∀ step, low ≤ step → step ≤ 3 → pdx step other = pdx step offset := by
      intro step above bound
      apply pdx_number above bound
      rw [Nat.mod_eq_of_lt inside, Nat.mod_eq_of_lt otherInside, same]
    refine ⟨?_, route low (Nat.le_refl _) lowBound⟩
    rw [← leads]
    exact tableAt_route lowBound fun step above bound => route step (by omega) bound

/-- A stored leaf is seen by the addresses of its entry. -/
theorem Grounded.store_leaf {offset other : Nat} (leads : tableFor vm.mem root low offset = some dir)
    (inside : offset < 2 ^ 48) (otherInside : other < 2 ^ 48)
    (leaf : ∀ lower, low = lower + 1 → tableOf lower pte = none) :
    leafOf (setWord vm.mem dir (pdx low offset) pte) root other =
      if other / entrySpan low = offset / entrySpan low then (low, pte) else leafOf vm.mem root other := by
  have table := tableFor_table leads
  have last : leafFrom tableOf (setWord vm.mem dir (pdx low offset) pte) (fun level => pdx level other) low
      pte = (low, pte) := by
    cases low with
    | zero => rfl
    | succ lower => simp [leafFrom, leaf lower rfl]
  rw [leafOf, leafAt_setWord _ _ (fun level => pdx_bound level other) (grounded.levels table), last]
  simp only [grounded.route_iff leads inside otherInside]
  rfl

end Store

/-- One leaf for the other, or blank ones of any level. -/
def SameLeaf (first second : Nat × Ptent) : Prop := first = second ∨ first.2 = 0 ∧ second.2 = 0

theorem SameLeaf.trans {first second third : Nat × Ptent} (one : SameLeaf first second)
    (two : SameLeaf second third) : SameLeaf first third := by
  rcases one with rfl | ⟨firstBlank, secondBlank⟩
  · exact two
  · rcases two with rfl | ⟨_, thirdBlank⟩
    · exact Or.inr ⟨firstBlank, secondBlank⟩
    · exact Or.inr ⟨firstBlank, thirdBlank⟩

theorem SameLeaf.translates {first second : Nat × Ptent} (same : SameLeaf first second) (va : Nat) :
    leafTranslates first va = leafTranslates second va := by
  rcases same with rfl | ⟨firstBlank, secondBlank⟩
  · rfl
  · simp [leafTranslates, firstBlank, secondBlank]

theorem entryBuilt_absent {level : Nat} {pte : Ptent} (isBuilt : entryBuilt level pte)
    (small : bigSlot level .none pte = false) (absent : ptePresent pte = false) : pte = 0 := by
  rcases isBuilt with (isZero | isTable) | ⟨middle, big⟩
  · exact isZero
  · rw [isTable, ptePresent_table] at absent
    exact absurd absent (by simp)
  · rcases middle with rfl | rfl <;> simp [bigSlot, big] at small

/-- The leaf of the addresses whose tables end at an entry. -/
theorem leafOf_end {low offset other : Nat} (leads : tableFor mem root (low + 1) offset = some dir)
    (same : other / entrySpan (low + 1) = offset / entrySpan (low + 1)) (inside : offset < 2 ^ 48)
    (otherInside : other < 2 ^ 48)
    (none : tableOf low (mem dir (pdx (low + 1) offset)) = Option.none) :
    leafOf mem root other = (low + 1, mem dir (pdx (low + 1) offset)) := by
  have lowBound := tableAt_le leads
  have route : ∀ step, low + 1 ≤ step → step ≤ 3 → pdx step other = pdx step offset := by
    intro step above bound
    apply pdx_number above bound
    rw [Nat.mod_eq_of_lt inside, Nat.mod_eq_of_lt otherInside, same]
  have here : tableAt tableOf mem (fun level => pdx level other) (low + 1) 3 root = some dir := by
    rw [← leads]
    exact tableAt_route lowBound fun step above bound => route step (by omega) bound
  rw [leafOf, leafAt_of_tableAt here, leafAt, route _ (Nat.le_refl _) lowBound, none]

section Install

variable {low offset page : Nat} {pool : PagePool} (grounded : Grounded entryBuilt [treeOf root] vm)
variable (taken : Taken vm.pool page pool) (small : pool.numPages ≤ maxPages)
variable (leads : tableFor vm.mem root (low + 1) offset = some dir)
variable (absent : ptePresent (vm.mem dir (pdx (low + 1) offset)) = false)

include grounded taken small leads absent

theorem Grounded.newTable : Grounded entryBuilt [treeOf root]
    (installTable { vm with pool := pool } ⟨dir, pdx (low + 1) offset⟩ (pageToPa page)) :=
  grounded.install taken small entryBuilt_zero entryBuilt_table (by simp) (tableFor_table leads)
    (pdx_bound _ _) (by simp [tableOf, absent])

theorem Grounded.newTable_pointers : PointersFrom root 0 vm.mem
    (installed vm.mem dir (pdx (low + 1) offset) (pageToPa page)) := by
  intro step inner position below _ inside bound names
  exact grounded.forest.install_extends (by simp) (tableFor_table leads) (pdx_bound _ _)
    (by simp [tableOf, absent]) (grounded.unused taken small) (taken.aligned small) (treeOf root)
    (by simp) step inner position below inside bound names

omit absent in
/-- A new table ends the way of the addresses of its entry. -/
theorem Grounded.newTable_grown (other : Nat) :
    leafOf (installed vm.mem dir (pdx (low + 1) offset) (pageToPa page)) root other =
      if tableAt tableOf vm.mem (fun level => pdx level other) (low + 1) 3 root = some dir ∧
          pdx (low + 1) other = pdx (low + 1) offset
      then (low, 0) else leafOf vm.mem root other := by
  have table := tableFor_table leads
  have unused : occurrences nptentries tableOf vm.mem (pageToPa page) 3 root = 0 := by
    have counted : occurrences nptentries tableOf vm.mem (pageToPa page) (treeOf root).level
        (treeOf root).root ≤ copies vm.mem [treeOf root] (pageToPa page) := occurrences_le_copies (by simp)
    rw [grounded.unused taken small, Nat.le_zero] at counted
    exact counted
  have names : tableOf low (pteAddr (pageToPa page) ||| pteDefFlags) = some (pageToPa page) := by
    rw [tableOf_table, taken.aligned small]
  exact leafAt_grow (pdx (low + 1) offset) (fun level => pdx_bound level other) table (grounded.once dir)
    unused tableOf_zero names

omit taken small in
theorem Grounded.newTable_empty (notBig : bigSlot (low + 1) .none (vm.mem dir (pdx (low + 1) offset)) = false) :
    vm.mem dir (pdx (low + 1) offset) = 0 :=
  entryBuilt_absent (grounded.forest.entries _ (by simp) low dir _ (tableFor_table leads) (pdx_bound _ _))
    notBig absent

/-- A new table changes no leaf but from blank to blank. -/
theorem Grounded.newTable_leaf (notBig : bigSlot (low + 1) .none (vm.mem dir (pdx (low + 1) offset)) = false)
    (other : Nat) :
    SameLeaf (leafOf (installed vm.mem dir (pdx (low + 1) offset) (pageToPa page)) root other)
      (leafOf vm.mem root other) := by
  have none : tableOf low (vm.mem dir (pdx (low + 1) offset)) = Option.none := by simp [tableOf, absent]
  rw [grounded.newTable_grown taken small leads]
  split
  · rename_i through
    refine Or.inr ⟨rfl, ?_⟩
    rw [leafOf, leafAt_of_tableAt through.1, leafAt, through.2, none]
    exact grounded.newTable_empty leads absent notBig
  · exact Or.inl rfl

end Install

/-! Walks that make tables. -/

/-- What a failed allocation and a new table keep: an invariant of the root, and what is shown of
its leaves. -/
structure LeafRule (root : PhysAddr) (kept : Vm → Prop) (shown : Nat → Nat × Ptent → Prop) : Prop where
  grounded : ∀ vm, kept vm → Grounded entryBuilt [treeOf root] vm
  failing : ∀ vm : Vm, kept vm → kept { vm with pool := { vm.pool with failed := true } }
  growing : ∀ vm next page, kept vm → Taken vm.pool page next.pool →
    Grounded entryBuilt [treeOf root] next →
    (∀ other, SameLeaf (leafOf next.mem root other) (leafOf vm.mem root other)) → kept next
  same : ∀ offset first second, SameLeaf first second → shown offset second → shown offset first

section Rule

variable {lost : PagePool → Prop} {kept : Vm → Prop} {shown : Nat → Nat × Ptent → Prop}
variable {firstVa lastVa : Nat} {cb : PageWalkCb} {create : Create} (leaves : LeafRule root kept shown)

include leaves

theorem LeafRule.refused (holds : kept vm) (none : ∀ page, (allocPage vm).1 ≠ some (some page))
    (result : Option Int) :
    StepKeeps lost kept (fun offset vm => shown offset (leafOf vm.mem root offset)) root 0 vm
      (result, (allocPage vm).2) fun _ => False := by
  have pool : (allocPage vm).2 = { vm with pool := { vm.pool with failed := true } } := by
    rcases pageAlloc_spec (leaves.grounded vm holds).list with ⟨page, allocated, _⟩ | refused
    · have pair : pageAlloc vm.pool = (some (some page), (pageAlloc vm.pool).2) := Prod.ext allocated rfl
      apply absurd _ (none (pageToPa page))
      rw [allocPage, pair]
    · rw [allocPage, refused]
  rw [pool]
  exact Or.inr ⟨leaves.failing vm holds, PointersFrom.refl 0, fun _ isDone => isDone,
    fun _ _ nothing => nothing.elim⟩

theorem LeafRule.install (outgrows : ∀ pool, outgrown maxPages pool → lost pool) {low offset : Nat}
    {page : PhysAddr} {next : Vm} (holds : kept vm) (leads : tableFor vm.mem root (low + 1) offset = some dir)
    (notBig : bigSlot (low + 1) .none (vm.mem dir (pdx (low + 1) offset)) = false)
    (absent : ptePresent (vm.mem dir (pdx (low + 1) offset)) = false)
    (allocated : allocPage vm = (some (some page), next)) :
    StepKeeps lost kept (fun offset vm => shown offset (leafOf vm.mem root offset)) root 0 vm
      (some 0, installTable next ⟨dir, pdx (low + 1) offset⟩ page) fun _ => False := by
  have grounded := leaves.grounded vm holds
  rcases allocPage_taken grounded.list with ⟨number, pool, takes, taken⟩ | ⟨pool, refused, _⟩
  · rw [takes, Prod.mk.injEq, Option.some.injEq, Option.some.injEq] at allocated
    obtain ⟨rfl, rfl⟩ := allocated
    by_cases small : pool.numPages ≤ maxPages
    · have same := grounded.newTable_leaf taken small leads absent notBig
      refine Or.inr ⟨?_, grounded.newTable_pointers taken small leads absent, ?_,
        fun _ _ nothing => nothing.elim⟩
      · exact leaves.growing vm _ number holds taken (grounded.newTable taken small leads absent) same
      · exact fun other isDone => leaves.same other _ _ (same other) isDone
    · exact Or.inl (outgrows pool (by simpa [outgrown] using small))
  · rw [refused] at allocated
    simp at allocated

/-- Walks over a range that make tables. -/
theorem LeafRule.rangeRule (outgrows : ∀ pool, outgrown maxPages pool → lost pool)
    (allocLost : ∀ vm, lost vm.pool → lost (allocPage vm).2.pool)
    (cbLost : ∀ slot va vm, lost vm.pool → lost (cb slot va vm).2.pool)
    (visit : ∀ vm low dir offset, kept vm → offset < 2 ^ 48 → tableFor vm.mem root low offset = some dir →
      Between 3 low firstVa lastVa offset → entrySpan low ∣ offset → targetLevel create ≤ low →
      visitsWord create low (vm.mem dir (pdx low offset)) = true →
      StepKeeps lost kept (fun offset vm => shown offset (leafOf vm.mem root offset)) root low vm
        (cb ⟨dir, pdx low offset⟩ (blockStart 3 firstVa + offset) vm)
        fun other => other / entrySpan low = offset / entrySpan low) :
    RangeRule lost kept (fun offset vm => shown offset (leafOf vm.mem root offset)) root firstVa lastVa
      cb create where
  cbLost := cbLost
  allocLost := Or.inr allocLost
  visit := visit
  refused := Or.inr fun _ holds none result => leaves.refused holds none result
  install := Or.inr fun _ _ _ _ _ _ holds _ leads _ small absent allocated =>
    leaves.install outgrows holds leads (bigSlot_none small) absent allocated

end Rule

end RdmaPaging
