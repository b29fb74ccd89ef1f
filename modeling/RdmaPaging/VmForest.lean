import RdmaPaging.RadixTree
import RdmaPaging.VmPages

/-!
The live page tables as a forest. No page serves as a table twice, in one tree or in
two, so a store to a table changes one tree in one place.
-/

namespace RdmaPaging

open RadixTree

/-- The table that an entry of a table of level `level + 1` names. -/
def tableOf (level : Nat) (pte : Ptent) : Option PhysAddr :=
  if bigSlot (level + 1) .none pte then none
  else if ptePresent pte then some (pteAddr pte) else none

/-- A live root, read as a table of `level`. `leaves` says whether the pages that its
4 KB entries map count as used. -/
structure Tree where
  level : Nat
  root : PhysAddr
  leaves : Bool

/-- The tree of a root. -/
def treeOf (root : PhysAddr) : Tree := ⟨3, root, true⟩

/-- `dir` is a table of level `low` of the tree. -/
def Tree.Table (tree : Tree) (mem : PhysAddr → Nat → Ptent) (low : Nat) (dir : PhysAddr) : Prop :=
  Within nptentries tableOf mem tree.level tree.root low dir

theorem Tree.rootTable (tree : Tree) (mem : PhysAddr → Nat → Ptent) :
    tree.Table mem tree.level tree.root := Within.here tree.level tree.root

def Tree.weigh (atTable : Nat → PhysAddr → Nat) (atWord : Ptent → Nat)
    (mem : PhysAddr → Nat → Ptent) (tree : Tree) : Nat :=
  RadixTree.weigh nptentries tableOf atTable (fun pte => if tree.leaves then atWord pte else 0) mem
    tree.level tree.root

def total (atTable : Nat → PhysAddr → Nat) (atWord : Ptent → Nat) (mem : PhysAddr → Nat → Ptent)
    (live : List Tree) : Nat :=
  (live.map (Tree.weigh atTable atWord mem)).sum

/-- How often a page serves as a table of the live trees. -/
def copies (mem : PhysAddr → Nat → Ptent) (live : List Tree) (page : PhysAddr) : Nat :=
  total (fun _ dir => if dir = page then 1 else 0) (fun _ => 0) mem live

structure Forest (entryOk : Nat → Ptent → Prop) (mem : PhysAddr → Nat → Ptent)
    (live : List Tree) : Prop where
  distinct : ∀ page, copies mem live page ≤ 1
  entries : ∀ tree ∈ live, ∀ low dir index, tree.Table mem (low + 1) dir → index < nptentries →
    entryOk (low + 1) (mem dir index)

variable {entryOk : Nat → Ptent → Prop} {mem : PhysAddr → Nat → Ptent} {live : List Tree}
variable {tree : Tree} {low index : Nat} {dir page : PhysAddr}
variable {atTable : Nat → PhysAddr → Nat} {atWord : Ptent → Nat}

theorem tree_occurrences (tree : Tree) (mem : PhysAddr → Nat → Ptent) (page : PhysAddr) :
    tree.weigh (fun _ dir => if dir = page then 1 else 0) (fun _ => 0) mem =
      occurrences nptentries tableOf mem page tree.level tree.root := by
  simp only [Tree.weigh, occurrences, ite_self]

theorem weigh_le_total (member : tree ∈ live) :
    tree.weigh atTable atWord mem ≤ total atTable atWord mem live :=
  List.single_le_sum (by simp) _ (List.mem_map_of_mem member)

theorem occurrences_le_copies (member : tree ∈ live) :
    occurrences nptentries tableOf mem page tree.level tree.root ≤ copies mem live page := by
  rw [← tree_occurrences]
  exact weigh_le_total member

theorem Tree.Table.copies_pos (table : tree.Table mem low dir) (member : tree ∈ live) :
    1 ≤ copies mem live dir :=
  Nat.le_trans (Within.occurs table) (occurrences_le_copies member)

theorem Tree.Table.ne_of_copies (table : tree.Table mem low dir) (member : tree ∈ live)
    (unused : copies mem live page = 0) : dir ≠ page := by
  intro same
  subst same
  have used := table.copies_pos member
  omega

theorem total_append (before after : List Tree) :
    total atTable atWord mem (before ++ after) =
      total atTable atWord mem before + total atTable atWord mem after := by
  simp [total]

theorem total_cons (tree : Tree) (rest : List Tree) :
    total atTable atWord mem (tree :: rest) =
      tree.weigh atTable atWord mem + total atTable atWord mem rest := by
  simp [total]

theorem total_congr {next : PhysAddr → Nat → Ptent}
    (agree : ∀ tree ∈ live, ∀ low dir, tree.Table mem low dir → ∀ index < nptentries,
      next dir index = mem dir index) :
    total atTable atWord next live = total atTable atWord mem live := by
  simp only [total]
  congr 1
  apply List.map_congr_left
  intro tree member
  exact weigh_congr tree.level tree.root fun low dir inside => agree tree member low dir inside

/-- A forest depends on the words of its tables only. -/
theorem Forest.congr {next : PhysAddr → Nat → Ptent} (forest : Forest entryOk mem live)
    (agree : ∀ tree ∈ live, ∀ low dir, tree.Table mem low dir → ∀ index < nptentries,
      next dir index = mem dir index) : Forest entryOk next live := by
  refine ⟨fun page => ?_, fun tree member low dir index inside bound => ?_⟩
  · rw [copies, total_congr agree]
    exact forest.distinct page
  · have before : tree.Table mem (low + 1) dir :=
      Within.of_congr inside fun lower top above position inRange =>
        agree tree member (lower + 1) top above position inRange
    rw [agree tree member _ _ before index bound]
    exact forest.entries tree member low dir index before bound

/-- The trees before and after the one that holds a table do not hold it. -/
theorem Forest.elsewhere {before after : List Tree}
    (forest : Forest entryOk mem (before ++ tree :: after)) (table : tree.Table mem low dir) :
    ∀ other ∈ before ++ after, occurrences nptentries tableOf mem dir other.level other.root = 0 := by
  intro other member
  have once := forest.distinct dir
  have here := Within.occurs table
  have counted : occurrences nptentries tableOf mem dir other.level other.root ≤
      copies mem (before ++ after) dir := occurrences_le_copies member
  simp only [copies, total_append, total_cons, tree_occurrences] at once counted
  omega

/-- A page is a table of one live tree only, and of one level. -/
theorem Forest.table_unique {other : Tree} {lower : Nat} (forest : Forest entryOk mem live)
    (member : tree ∈ live) (otherMember : other ∈ live) (table : tree.Table mem low dir)
    (otherTable : other.Table mem lower dir) : other = tree ∧ lower = low := by
  have same : other = tree := by
    obtain ⟨before, after, split⟩ := List.append_of_mem member
    subst split
    by_contra different
    have beside : other ∈ before ++ after := by
      simp only [List.mem_append, List.mem_cons] at otherMember ⊢
      rcases otherMember with early | isTree | late
      · exact Or.inl early
      · exact absurd isTree different
      · exact Or.inr late
    exact not_within_of_occurrences (forest.elsewhere table other beside) otherTable
  subst same
  refine ⟨rfl, Within.low_unique otherTable table ?_⟩
  exact Nat.le_trans (occurrences_le_copies member) (forest.distinct dir)

/-- Every pointer of the live trees to a table is still there. -/
def Extends (live : List Tree) (mem next : PhysAddr → Nat → Ptent) : Prop :=
  ∀ tree ∈ live, ∀ low dir index below, tree.Table mem (low + 1) dir → index < nptentries →
    tableOf low (mem dir index) = some below → tableOf low (next dir index) = some below

theorem Extends.table {next : PhysAddr → Nat → Ptent} (grows : Extends live mem next)
    (member : tree ∈ live) (table : tree.Table mem low dir) : tree.Table next low dir :=
  Within.mono table (grows tree member)

theorem Extends.refl : Extends live mem mem := fun _ _ _ _ _ _ _ _ points => points

theorem Extends.trans {middle next : PhysAddr → Nat → Ptent} (first : Extends live mem middle)
    (second : Extends live middle next) : Extends live mem next :=
  fun tree member low dir index below table bound points =>
    second tree member low dir index below (first.table member table) bound
      (first tree member low dir index below table bound points)

/-- A store to an entry of a live table takes the old entry's part out of every total and
puts the new entry's part in. -/
theorem Forest.total_setWord (forest : Forest entryOk mem live) (member : tree ∈ live)
    (table : tree.Table mem low dir) (atTable : Nat → PhysAddr → Nat) (atWord : Ptent → Nat)
    (bound : index < nptentries) (pte : Ptent) :
    total atTable atWord (setWord mem dir index pte) live +
        part nptentries tableOf atTable (fun pte => if tree.leaves then atWord pte else 0) mem low
          (mem dir index) =
      total atTable atWord mem live +
        part nptentries tableOf atTable (fun pte => if tree.leaves then atWord pte else 0)
          (setWord mem dir index pte) low pte := by
  obtain ⟨before, after, split⟩ := List.append_of_mem member
  subst split
  have elsewhere := forest.elsewhere table
  have unchanged : ∀ part : List Tree, (∀ other ∈ part, other ∈ before ++ after) →
      total atTable atWord (setWord mem dir index pte) part = total atTable atWord mem part := by
    intro part inside
    simp only [total]
    congr 1
    apply List.map_congr_left
    intro other inPart
    exact weigh_setWord_absent pte (elsewhere other (inside other inPart))
  have once := Nat.le_trans (occurrences_le_copies member) (forest.distinct dir)
  have balance := Within.weigh_setWord table atTable
    (fun pte => if tree.leaves then atWord pte else 0) bound pte once
  rw [total_append, total_append, total_cons, total_cons, unchanged before (by simp +contextual),
    unchanged after (by simp +contextual)]
  simp only [Tree.weigh]
  omega

theorem copies_setWord_leaf (forest : Forest entryOk mem live) (member : tree ∈ live)
    (table : tree.Table mem 0 dir) (bound : index < nptentries) (pte : Ptent) (page : PhysAddr) :
    copies (setWord mem dir index pte) live page = copies mem live page := by
  have balance : copies (setWord mem dir index pte) live page + _ = copies mem live page + _ :=
    forest.total_setWord member table _ _ bound pte
  simpa [part] using balance

/-- A store to a 4 KB entry does not touch the tables above. -/
theorem Forest.setLeaf_above (forest : Forest entryOk mem live) (member : tree ∈ live)
    (table : tree.Table mem 0 dir) (pte : Ptent) {other : Tree} (otherMember : other ∈ live)
    {upper : Nat} {top : PhysAddr} (inside : other.Table mem (upper + 1) top) (position : Nat) :
    setWord mem dir index pte top position = mem top position := by
  have different : top ≠ dir := by
    intro same
    subst same
    have level := (forest.table_unique member otherMember table inside).2
    omega
  simp [setWord, different]

theorem Forest.setLeaf_extends (forest : Forest entryOk mem live) (member : tree ∈ live)
    (table : tree.Table mem 0 dir) (pte : Ptent) :
    Extends live mem (setWord mem dir index pte) := by
  intro other otherMember upper top position below inside _ points
  rw [forest.setLeaf_above member table pte otherMember inside]
  exact points

theorem Forest.of_setLeaf_table (forest : Forest entryOk mem live) (member : tree ∈ live)
    (table : tree.Table mem 0 dir) (pte : Ptent) {other : Tree} (otherMember : other ∈ live)
    {lower : Nat} {inner : PhysAddr}
    (inside : other.Table (setWord mem dir index pte) lower inner) :
    other.Table mem lower inner :=
  Within.of_congr inside fun _ _ above position _ =>
    forest.setLeaf_above member table pte otherMember above position

theorem Forest.setLeaf (forest : Forest entryOk mem live) (member : tree ∈ live)
    (table : tree.Table mem 0 dir) (bound : index < nptentries) (pte : Ptent) :
    Forest entryOk (setWord mem dir index pte) live := by
  refine ⟨fun page => ?_, fun other otherMember low inner position inside inRange => ?_⟩
  · rw [copies_setWord_leaf forest member table bound]
    exact forest.distinct page
  · have before := forest.of_setLeaf_table member table pte otherMember inside
    rw [forest.setLeaf_above member table pte otherMember before]
    exact forest.entries other otherMember low inner position before inRange

/-- The memory after `memset` of a page. -/
def cleared (mem : PhysAddr → Nat → Ptent) (page : PhysAddr) : PhysAddr → Nat → Ptent :=
  fun dir index => if dir = page then 0 else mem dir index

theorem cleared_agree (unused : copies mem live page = 0) :
    ∀ tree ∈ live, ∀ low dir, tree.Table mem low dir → ∀ index < nptentries,
      cleared mem page dir index = mem dir index := by
  intro tree member low dir inside index _
  simp [cleared, inside.ne_of_copies member unused]

theorem cleared_table (unused : copies mem live page = 0) (member : tree ∈ live) :
    tree.Table (cleared mem page) low dir ↔ tree.Table mem low dir := by
  have agree : ∀ lower top, tree.Table mem (lower + 1) top → ∀ index < nptentries,
      cleared mem page top index = mem top index :=
    fun lower top inside => cleared_agree unused tree member (lower + 1) top inside
  exact ⟨fun inside => Within.of_congr inside agree, fun inside => Within.congr inside agree⟩

theorem Forest.clear (forest : Forest entryOk mem live) (unused : copies mem live page = 0) :
    Forest entryOk (cleared mem page) live := forest.congr (cleared_agree unused)

@[simp] theorem tableOf_zero (level : Nat) : tableOf level 0#64 = none := by
  simp [tableOf, bigSlot]

@[simp] theorem tableOf_table (level : Nat) (page : PhysAddr) :
    tableOf level (pteAddr page ||| pteDefFlags) = some (pteAddr page) := by
  simp [tableOf, bigSlot]

/-- The memory after a fresh page is entered as a table. -/
def installed (mem : PhysAddr → Nat → Ptent) (dir : PhysAddr) (index : Nat) (page : PhysAddr) :
    PhysAddr → Nat → Ptent :=
  setWord (cleared mem page) dir index (pteAddr page ||| pteDefFlags)

theorem installTable_mem (vm : Vm) (slot : PteRef) (page : PhysAddr) :
    (installTable vm slot page).mem = installed vm.mem slot.dir slot.index page := rfl

theorem installed_page {position : Nat} (different : dir ≠ page) :
    installed mem dir index page page position = 0 := by
  simp [installed, setWord, cleared, Ne.symm different]

section Install

variable (forest : Forest entryOk mem live) (member : tree ∈ live)
variable (table : tree.Table mem (low + 1) dir) (bound : index < nptentries)
variable (empty : tableOf low (mem dir index) = none)
variable (unused : copies mem live page = 0) (aligned : pteAddr page = page)

include forest member table bound empty unused aligned

theorem Forest.total_installed (weightless : atWord 0 = 0) :
    total atTable atWord (installed mem dir index page) live =
      total atTable atWord mem live + atTable low page := by
  have different := table.ne_of_copies member unused
  have balance := (forest.clear unused).total_setWord member
    ((cleared_table unused member).mpr table) atTable atWord bound (pteAddr page ||| pteDefFlags)
  have old : cleared mem page dir index = mem dir index := by simp [cleared, different]
  have blank : RadixTree.weigh nptentries tableOf atTable
      (fun pte => if tree.leaves then atWord pte else 0) (installed mem dir index page) low page =
      atTable low page := by
    apply weigh_blank low page (fun position _ => installed_page different)
      (fun level => tableOf_zero level)
    rw [weightless, ite_self]
  rw [total_congr (cleared_agree unused), old] at balance
  have points : tableOf low (pteAddr page ||| pteDefFlags) = some page := by
    rw [tableOf_table, aligned]
  simp only [part, empty, points, Nat.add_zero] at balance
  rw [← blank]
  exact balance

theorem Forest.install_extends : Extends live mem (installed mem dir index page) := by
  intro other otherMember upper top position below inside inRange points
  rw [installed, setWord]
  split
  · rename_i stored
    obtain ⟨rfl, rfl⟩ := stored
    have level := (forest.table_unique member otherMember table inside).2
    obtain rfl : upper = low := by omega
    rw [empty] at points
    exact absurd points (by simp)
  · rw [cleared_agree unused other otherMember _ _ inside position inRange]
    exact points

theorem Forest.installed_new : tree.Table (installed mem dir index page) low page := by
  have grows := forest.install_extends member table bound empty unused aligned
  apply Within.step (grows.table member table) bound
  rw [installed, setWord, if_pos ⟨rfl, rfl⟩, tableOf_table, aligned]

theorem Forest.of_installed_table {other : Tree} (otherMember : other ∈ live) {lower : Nat}
    {inner : PhysAddr} (inside : other.Table (installed mem dir index page) lower inner) :
    other.Table mem lower inner ∨ inner = page := by
  have different := table.ne_of_copies member unused
  rcases Within.of_setWord inside with before | ⟨upper, below, points, through⟩
  · exact Or.inl ((cleared_table unused otherMember).mp before)
  · rw [tableOf_table, Option.some.injEq, aligned] at points
    subst points
    exact Or.inr (Within.of_blank through (fun position _ => installed_page different)
      fun level => tableOf_zero level)

theorem Forest.install (okZero : ∀ level, entryOk level 0)
    (okTable : ∀ level page, entryOk level (pteAddr page ||| pteDefFlags)) :
    Forest entryOk (installed mem dir index page) live := by
  have different := table.ne_of_copies member unused
  refine ⟨fun other => ?_, fun other otherMember lower inner position inside inRange => ?_⟩
  · rw [copies, forest.total_installed member table bound empty unused aligned rfl]
    have once : copies mem live other ≤ 1 := forest.distinct other
    unfold copies at once unused
    by_cases isPage : page = other
    · subst isPage
      rw [unused, if_pos rfl]
    · rw [if_neg isPage]
      exact once
  · by_cases isPage : inner = page
    · subst isPage
      rw [installed_page different]
      exact okZero _
    · have before := (forest.of_installed_table member table bound empty unused aligned otherMember
        inside).resolve_right isPage
      rw [installed, setWord]
      split
      · exact okTable _ _
      · rw [cleared_agree unused other otherMember _ _ before position inRange]
        exact forest.entries other otherMember lower inner position before inRange

end Install

/-! Roots that come and go. -/

theorem total_planted (atTable : Nat → PhysAddr → Nat) (atWord : Ptent → Nat) (level : Nat)
    (leaves : Bool) (unused : copies mem live page = 0) (weightless : atWord 0 = 0) :
    total atTable atWord (cleared mem page) (⟨level, page, leaves⟩ :: live) =
      total atTable atWord mem live + atTable level page := by
  have blank : Tree.weigh atTable atWord (cleared mem page) ⟨level, page, leaves⟩ =
      atTable level page := by
    apply weigh_blank level page (fun position _ => if_pos rfl) (fun level => tableOf_zero level)
    show (if leaves then atWord 0 else 0) = 0
    rw [weightless, ite_self]
  rw [total_cons, blank, total_congr (cleared_agree unused), Nat.add_comm]

/-- A cleared page joins the forest as an empty root. -/
theorem Forest.plant (forest : Forest entryOk mem live) (unused : copies mem live page = 0)
    (level : Nat) (leaves : Bool) (okZero : ∀ level, entryOk level 0) :
    Forest entryOk (cleared mem page) (⟨level, page, leaves⟩ :: live) := by
  refine ⟨fun other => ?_, fun tree member low dir index inside bound => ?_⟩
  · have once := forest.distinct other
    unfold copies at once unused ⊢
    rw [total_planted _ _ level leaves unused rfl]
    by_cases isPage : page = other
    · subst isPage
      rw [unused, if_pos rfl]
    · rw [if_neg isPage]
      exact once
  · rcases List.mem_cons.mp member with isNew | old
    · subst isNew
      have isPage : dir = page :=
        Within.of_blank inside (fun position _ => if_pos rfl) fun level => tableOf_zero level
      subst isPage
      rw [cleared, if_pos rfl]
      exact okZero _
    · exact (forest.clear unused).entries tree old low dir index inside bound

theorem Forest.drop (forest : Forest entryOk mem (tree :: live)) : Forest entryOk mem live := by
  refine ⟨fun page => ?_, fun other member => forest.entries other (List.mem_cons_of_mem _ member)⟩
  have once := forest.distinct page
  unfold copies at once ⊢
  rw [total_cons] at once
  omega

theorem total_perm {other : List Tree} (same : live.Perm other) :
    total atTable atWord mem live = total atTable atWord mem other :=
  (same.map _).sum_eq

theorem Forest.perm {other : List Tree} (forest : Forest entryOk mem live)
    (same : live.Perm other) : Forest entryOk mem other := by
  refine ⟨fun page => ?_, fun tree member => forest.entries tree (same.mem_iff.mpr member)⟩
  have once := forest.distinct page
  unfold copies at once ⊢
  rw [← total_perm same]
  exact once

theorem blank_table {root : PhysAddr} (table : (treeOf root).Table (fun _ _ => 0) low dir) :
    dir = root :=
  Within.of_blank table (fun _ _ => rfl) fun level => tableOf_zero level

theorem copies_blank (root page : PhysAddr) :
    copies (fun _ _ => 0) [treeOf root] page = if root = page then 1 else 0 := by
  have once : Tree.weigh (fun _ dir => if dir = page then 1 else 0) (fun _ => 0) (fun _ _ => 0)
      (treeOf root) = if root = page then 1 else 0 :=
    weigh_blank 3 root (fun _ _ => rfl) (fun level => tableOf_zero level) rfl
  rw [copies, total_cons, once]
  rfl

/-- A root in blank memory. -/
theorem Forest.blank (root : PhysAddr) (okZero : ∀ level, entryOk level 0) :
    Forest entryOk (fun _ _ => 0) [treeOf root] := by
  refine ⟨fun page => ?_, fun tree _ low dir index _ _ => okZero _⟩
  rw [copies_blank]
  split <;> omega

/-- An entry that is empty or names a table. -/
def entryPlain (_ : Nat) (pte : Ptent) : Prop := pte = 0 ∨ ptePresent pte = true ∧ pteBig pte = false

theorem entryPlain_zero (level : Nat) : entryPlain level 0 := Or.inl rfl

theorem entryPlain_table (level : Nat) (page : PhysAddr) :
    entryPlain level (pteAddr page ||| pteDefFlags) := by
  right
  simp

theorem entryPlain.names {level : Nat} {pte : Ptent} (plain : entryPlain level pte) (lower : Nat) :
    tableOf lower pte = if pte = 0 then none else some (pteAddr pte) := by
  rcases plain with isZero | ⟨present, small⟩
  · simp [isZero]
  · have nonzero : pte ≠ 0 := by
      rintro rfl
      exact absurd present (by decide)
    rw [if_neg nonzero]
    simp [tableOf, bigSlot, present, small]

section Lower

variable {level : Nat} {root : PhysAddr} {leaves : Bool}

theorem lower_agree (forest : Forest entryPlain mem (⟨level + 1, root, leaves⟩ :: live)) :
    ∀ lower dir index, Within nptentries tableOf mem (level + 1) root (lower + 2) dir →
      index < nptentries → tableOf lower (mem dir index) = tableOf (lower + 1) (mem dir index) := by
  intro lower dir index inside bound
  have plain := forest.entries ⟨level + 1, root, leaves⟩ (by simp) (lower + 1) dir index inside bound
  rw [plain.names, plain.names]

/-- The root of a plain tree taken for a table of one level less: the tables of the old
bottom become mapped pages. -/
theorem total_lowered (counted : Bool)
    (forest : Forest entryPlain mem (⟨level + 1, root, leaves⟩ :: live))
    {atPage : PhysAddr → Nat} (weightless : atWord 0 = 0)
    (words : ∀ pte, pte ≠ 0 → atWord pte ≤ atPage (pteAddr pte)) :
    total (fun _ => atPage) atWord mem (⟨level, root, counted⟩ :: live) ≤
      total (fun _ => atPage) atWord mem (⟨level + 1, root, leaves⟩ :: live) := by
  rw [total_cons, total_cons]
  refine Nat.add_le_add_right ?_ _
  refine weigh_lower_le level root ?_ (lower_agree forest) ?_
  · exact fun _ _ => Nat.le_refl _
  · intro dir index inside bound
    have plain := forest.entries ⟨level + 1, root, leaves⟩ (by simp) 0 dir index inside bound
    simp only [part, plain.names]
    by_cases isZero : mem dir index = 0
    · rw [isZero, weightless, ite_self]
      exact Nat.zero_le _
    · rw [if_neg isZero]
      have target : atPage (pteAddr (mem dir index)) ≤ RadixTree.weigh nptentries tableOf
          (fun _ => atPage) (fun pte => if leaves then atWord pte else 0) mem 0
          (pteAddr (mem dir index)) := by
        rw [weigh_eq]
        exact Nat.le_add_right _ _
      refine Nat.le_trans ?_ target
      split
      · exact words _ isZero
      · exact Nat.zero_le _

theorem Forest.lower (counted : Bool)
    (forest : Forest entryPlain mem (⟨level + 1, root, leaves⟩ :: live)) :
    Forest entryPlain mem (⟨level, root, counted⟩ :: live) := by
  refine ⟨fun page => ?_, fun tree member low dir index inside bound => ?_⟩
  · refine Nat.le_trans ?_ (forest.distinct page)
    exact total_lowered counted forest rfl fun _ _ => Nat.zero_le _
  · rcases List.mem_cons.mp member with isLowered | old
    · subst isLowered
      exact forest.entries ⟨level + 1, root, leaves⟩ (by simp) (low + 1) dir index
        (Within.raise inside (lower_agree forest)) bound
    · exact forest.entries tree (List.mem_cons_of_mem _ old) low dir index inside bound

end Lower

end RdmaPaging
