import Mathlib.Algebra.BigOperators.Group.Finset.Basic
import Mathlib.Algebra.Order.BigOperators.Group.Finset

/-!
Trees of tables in a word memory. A table of level `level + 1` has `fanout` words, and
`child level word` is the table of the next level that a word names. Weights of tables
and of the words at the bottom are summed over a tree, and a single changed word changes
the sum by its own part.
-/

namespace RadixTree

variable {A E : Type*} (fanout : Nat) (child : Nat → E → Option A)

/-- The sum of the weights of the tables of a tree, one for each way to reach a table,
and of the words of its tables of level 0. -/
@[grind =] def weigh (atTable : Nat → A → Nat) (atWord : E → Nat) (memory : A → Nat → E) :
    Nat → A → Nat
  | 0, table => atTable 0 table + ∑ index ∈ Finset.range fanout, atWord (memory table index)
  | level + 1, table => atTable (level + 1) table + ∑ index ∈ Finset.range fanout,
      match child level (memory table index) with
      | some below => weigh atTable atWord memory level below
      | none => 0

/-- The part of the weight that a word of a table contributes. -/
@[grind =] def part (atTable : Nat → A → Nat) (atWord : E → Nat) (memory : A → Nat → E) :
    Nat → E → Nat
  | 0, word => atWord word
  | level + 1, word =>
      match child level word with
      | some below => weigh fanout child atTable atWord memory level below
      | none => 0

/-- The sum of the weights of the tables of a tree and of all words that name no table. -/
@[grind =] def tally (atTable : Nat → A → Nat) (atWord : Nat → E → Nat) (memory : A → Nat → E) :
    Nat → A → Nat
  | 0, table => atTable 0 table + ∑ index ∈ Finset.range fanout, atWord 0 (memory table index)
  | level + 1, table => atTable (level + 1) table + ∑ index ∈ Finset.range fanout,
      match child level (memory table index) with
      | some below => tally atTable atWord memory level below
      | none => atWord (level + 1) (memory table index)

/-- The part of a tally that a word of a table contributes. -/
@[grind =] def share (atTable : Nat → A → Nat) (atWord : Nat → E → Nat) (memory : A → Nat → E) :
    Nat → E → Nat
  | 0, word => atWord 0 word
  | level + 1, word =>
      match child level word with
      | some below => tally fanout child atTable atWord memory level below
      | none => atWord (level + 1) word

/-- `Within memory level root low table`: `table` is a table of level `low` of the tree of
level `level` at `root`. -/
inductive Within (memory : A → Nat → E) : Nat → A → Nat → A → Prop
  | here (level : Nat) (table : A) : Within memory level table level table
  | under {level low : Nat} {root below table : A} {index : Nat} : index < fanout →
      child level (memory root index) = some below → Within memory level below low table →
      Within memory (level + 1) root low table

/-- Change one word. -/
def setWord [DecidableEq A] (memory : A → Nat → E) (table : A) (index : Nat) (word : E) :
    A → Nat → E :=
  fun other position => if other = table ∧ position = index then word else memory other position

variable {fanout child}
variable {atTable : Nat → A → Nat} {atWord : E → Nat} {memory next : A → Nat → E}
variable {atLevelWord : Nat → E → Nat}
variable {level low lower : Nat} {root table below : A} {index : Nat}

theorem weigh_eq (level : Nat) (table : A) :
    weigh fanout child atTable atWord memory level table = atTable level table +
      ∑ index ∈ Finset.range fanout,
        part fanout child atTable atWord memory level (memory table index) := by
  cases level <;> rfl

theorem tally_eq (level : Nat) (table : A) :
    tally fanout child atTable atLevelWord memory level table = atTable level table +
      ∑ index ∈ Finset.range fanout,
        share fanout child atTable atLevelWord memory level (memory table index) := by
  cases level <;> rfl

/-- A weight is a tally that counts words at the bottom only. -/
theorem weigh_eq_tally (level : Nat) (table : A) :
    weigh fanout child atTable atWord memory level table =
      tally fanout child atTable (fun low word => if low = 0 then atWord word else 0) memory
        level table := by
  induction level generalizing table with
  | zero => rfl
  | succ level ih =>
      simp only [weigh, tally, ih]
      rfl

theorem part_eq_share (level : Nat) (word : E) :
    part fanout child atTable atWord memory level word =
      share fanout child atTable (fun low word => if low = 0 then atWord word else 0) memory
        level word := by
  cases level with
  | zero => rfl
  | succ level =>
      simp only [part, share, weigh_eq_tally]
      rfl

theorem Within.low_le (within : Within fanout child memory level root low table) :
    low ≤ level := by
  induction within with
  | here => exact Nat.le_refl _
  | under _ _ _ ih => omega

theorem Within.step (within : Within fanout child memory level root (low + 1) table)
    (bound : index < fanout) (points : child low (memory table index) = some below) :
    Within fanout child memory level root low below := by
  generalize deeper : low + 1 = top at within
  induction within with
  | here level table =>
      subst deeper
      exact .under bound points (.here low below)
  | under first enters _ ih => exact .under first enters (ih points deeper)

/-- A tree whose pointers are kept has kept its tables. -/
theorem Within.mono (within : Within fanout child memory level root low table)
    (kept : ∀ lower table index below, Within fanout child memory level root (lower + 1) table →
      index < fanout → child lower (memory table index) = some below →
      child lower (next table index) = some below) :
    Within fanout child next level root low table := by
  induction within with
  | here level table => exact .here level table
  | under bound enters _ ih =>
      refine .under bound (kept _ _ _ _ (.here _ _) bound enters) (ih ?_)
      intro lower table index below inside
      exact kept lower table index below (.under bound enters inside)

/-- Two memories that agree above the bottom of a tree give it the same tables. -/
theorem Within.congr (within : Within fanout child memory level root low table)
    (agree : ∀ lower table, Within fanout child memory level root (lower + 1) table →
      ∀ index < fanout, next table index = memory table index) :
    Within fanout child next level root low table := by
  apply within.mono
  intro lower table index below inside bound points
  rw [agree _ _ inside index bound]
  exact points

theorem Within.of_congr (within : Within fanout child next level root low table)
    (agree : ∀ lower table, Within fanout child memory level root (lower + 1) table →
      ∀ index < fanout, next table index = memory table index) :
    Within fanout child memory level root low table := by
  induction within with
  | here level table => exact .here level table
  | under bound enters _ ih =>
      rw [agree _ _ (.here _ _) _ bound] at enters
      refine .under bound enters (ih ?_)
      intro lower table inside
      exact agree lower table (.under bound enters inside)

theorem tally_congr (level : Nat) (root : A)
    (agree : ∀ lower table, Within fanout child memory level root lower table →
      ∀ index < fanout, next table index = memory table index) :
    tally fanout child atTable atLevelWord next level root =
      tally fanout child atTable atLevelWord memory level root := by
  induction level generalizing root with
  | zero =>
      rw [tally_eq, tally_eq]
      congr 1
      apply Finset.sum_congr rfl
      intro index member
      rw [agree 0 root (.here 0 root) index (Finset.mem_range.mp member)]
      rfl
  | succ level ih =>
      rw [tally_eq, tally_eq]
      congr 1
      apply Finset.sum_congr rfl
      intro index member
      have bound := Finset.mem_range.mp member
      rw [agree (level + 1) root (.here _ root) index bound]
      simp only [share]
      split
      · rename_i below points
        apply ih
        intro lower table inside
        exact agree lower table (.under bound points inside)
      · rfl

theorem weigh_congr (level : Nat) (root : A)
    (agree : ∀ lower table, Within fanout child memory level root lower table →
      ∀ index < fanout, next table index = memory table index) :
    weigh fanout child atTable atWord next level root =
      weigh fanout child atTable atWord memory level root := by
  rw [weigh_eq_tally, weigh_eq_tally]
  exact tally_congr level root agree

theorem part_le_weigh (bound : index < fanout) :
    part fanout child atTable atWord memory level (memory table index) ≤
      weigh fanout child atTable atWord memory level table := by
  rw [weigh_eq]
  have single := Finset.single_le_sum
    (f := fun index => part fanout child atTable atWord memory level (memory table index))
    (fun _ _ => Nat.zero_le _) (Finset.mem_range.mpr bound)
  omega

theorem two_parts_le_weigh {other : Nat} (bound : index < fanout) (otherBound : other < fanout)
    (different : other ≠ index) :
    part fanout child atTable atWord memory level (memory table index) +
      part fanout child atTable atWord memory level (memory table other) ≤
      weigh fanout child atTable atWord memory level table := by
  rw [weigh_eq, ← Finset.add_sum_erase _ _ (Finset.mem_range.mpr bound)]
  have rest := Finset.single_le_sum
    (f := fun index => part fanout child atTable atWord memory level (memory table index))
    (fun _ _ => Nat.zero_le _)
    (Finset.mem_erase.mpr ⟨different, Finset.mem_range.mpr otherBound⟩)
  omega

theorem Within.weigh_le (within : Within fanout child memory level root low table) :
    weigh fanout child atTable atWord memory low table ≤
      weigh fanout child atTable atWord memory level root := by
  induction within with
  | here => exact Nat.le_refl _
  | under bound enters _ ih =>
      refine Nat.le_trans ih ?_
      refine Nat.le_trans (Nat.le_of_eq ?_) (part_le_weigh bound)
      simp only [part, enters]

theorem Within.atTable_le (within : Within fanout child memory level root low table)
    (atTable : Nat → A → Nat) (atWord : E → Nat) :
    atTable low table ≤ weigh fanout child atTable atWord memory level root := by
  refine Nat.le_trans ?_ within.weigh_le
  rw [weigh_eq]
  exact Nat.le_add_right _ _

theorem Within.atWord_le (within : Within fanout child memory level root 0 table)
    (atTable : Nat → A → Nat) (atWord : E → Nat) (bound : index < fanout) :
    atWord (memory table index) ≤ weigh fanout child atTable atWord memory level root := by
  have inTable : part fanout child atTable atWord memory 0 (memory table index) ≤
      weigh fanout child atTable atWord memory 0 table := part_le_weigh bound
  exact Nat.le_trans inTable within.weigh_le

theorem weigh_eq_zero (level : Nat) (root : A)
    (tables : ∀ lower table, Within fanout child memory level root lower table →
      atTable lower table = 0)
    (words : ∀ table, Within fanout child memory level root 0 table → ∀ index < fanout,
      atWord (memory table index) = 0) :
    weigh fanout child atTable atWord memory level root = 0 := by
  induction level generalizing root with
  | zero =>
      rw [weigh_eq, tables 0 root (.here 0 root), Nat.zero_add]
      apply Finset.sum_eq_zero
      intro index member
      exact words root (.here 0 root) index (Finset.mem_range.mp member)
  | succ level ih =>
      rw [weigh_eq, tables _ root (.here _ root), Nat.zero_add]
      apply Finset.sum_eq_zero
      intro index member
      have bound := Finset.mem_range.mp member
      simp only [part]
      split
      · rename_i below points
        apply ih
        · intro lower table inside
          exact tables lower table (.under bound points inside)
        · intro table inside
          exact words table (.under bound points inside)
      · rfl

theorem tally_blank {blank : E} (level : Nat) (root : A)
    (cleared : ∀ index < fanout, memory root index = blank)
    (pointless : ∀ level, child level blank = none)
    (weightless : ∀ level, atLevelWord level blank = 0) :
    tally fanout child atTable atLevelWord memory level root = atTable level root := by
  rw [tally_eq]
  rw [Finset.sum_eq_zero, Nat.add_zero]
  intro index member
  rw [cleared index (Finset.mem_range.mp member)]
  cases level with
  | zero => exact weightless 0
  | succ level => simp only [share, pointless, weightless]

/-- A table of blank words weighs what the table itself does. -/
theorem weigh_blank {blank : E} (level : Nat) (root : A)
    (cleared : ∀ index < fanout, memory root index = blank)
    (pointless : ∀ level, child level blank = none) (weightless : atWord blank = 0) :
    weigh fanout child atTable atWord memory level root = atTable level root := by
  rw [weigh_eq_tally]
  apply tally_blank level root cleared pointless
  intro low
  rw [weightless, ite_self]

theorem Within.of_blank {blank : E} (within : Within fanout child memory level root low table)
    (cleared : ∀ index < fanout, memory root index = blank)
    (pointless : ∀ level, child level blank = none) : table = root := by
  cases within with
  | here => rfl
  | under bound enters _ =>
      rw [cleared _ bound, pointless] at enters
      exact absurd enters (by simp)

/-- Weights that fit side by side under a third give sums that do. -/
theorem weigh_add_le (first second both : Nat → A → Nat) (firstWord secondWord bothWord : E → Nat)
    (tables : ∀ level table, first level table + second level table ≤ both level table)
    (words : ∀ word, firstWord word + secondWord word ≤ bothWord word) (level : Nat) (root : A) :
    weigh fanout child first firstWord memory level root +
      weigh fanout child second secondWord memory level root ≤
      weigh fanout child both bothWord memory level root := by
  induction level generalizing root with
  | zero =>
      simp only [weigh]
      have sums : ∑ index ∈ Finset.range fanout, firstWord (memory root index) +
          ∑ index ∈ Finset.range fanout, secondWord (memory root index) ≤
          ∑ index ∈ Finset.range fanout, bothWord (memory root index) := by
        rw [← Finset.sum_add_distrib]
        exact Finset.sum_le_sum fun index _ => words (memory root index)
      have here := tables 0 root
      omega
  | succ level ih =>
      rw [weigh_eq, weigh_eq, weigh_eq]
      have sums : ∑ index ∈ Finset.range fanout,
            part fanout child first firstWord memory (level + 1) (memory root index) +
          ∑ index ∈ Finset.range fanout,
            part fanout child second secondWord memory (level + 1) (memory root index) ≤
          ∑ index ∈ Finset.range fanout,
            part fanout child both bothWord memory (level + 1) (memory root index) := by
        rw [← Finset.sum_add_distrib]
        refine Finset.sum_le_sum fun index _ => ?_
        simp only [part]
        split
        · exact ih _
        · exact Nat.le_refl _
      have here := tables (level + 1) root
      omega

theorem weigh_mono {first second : Nat → A → Nat} {firstWord secondWord : E → Nat}
    (tables : ∀ level table, first level table ≤ second level table)
    (words : ∀ word, firstWord word ≤ secondWord word) (level : Nat) (root : A) :
    weigh fanout child first firstWord memory level root ≤
      weigh fanout child second secondWord memory level root := by
  have both : weigh fanout child first firstWord memory level root +
      weigh fanout child (fun _ _ => 0) (fun _ => 0) memory level root ≤
      weigh fanout child second secondWord memory level root :=
    weigh_add_le _ _ _ _ _ _ tables words level root
  omega

section Occurrences

variable [DecidableEq A]

/-- How often a table occurs in a tree. -/
def occurrences (fanout : Nat) (child : Nat → E → Option A) (memory : A → Nat → E) (table : A) :
    Nat → A → Nat :=
  weigh fanout child (fun _ other => if other = table then 1 else 0) (fun _ => 0) memory

theorem Within.occurs (within : Within fanout child memory level root low table) :
    1 ≤ occurrences fanout child memory table level root := by
  have counted := within.atTable_le (fun _ other => if other = table then 1 else 0) (fun _ => 0)
  rw [if_pos rfl] at counted
  exact counted

theorem not_within_of_occurrences (absent : occurrences fanout child memory table level root = 0) :
    ¬ Within fanout child memory level root low table := by
  intro within
  have counted := within.occurs
  omega

/-- A table that occurs once has one level. -/
theorem Within.low_unique (within : Within fanout child memory level root low table)
    (again : Within fanout child memory level root lower table)
    (once : occurrences fanout child memory table level root ≤ 1) : low = lower := by
  by_contra different
  have both : weigh fanout child (fun step other => if step = low ∧ other = table then 1 else 0)
        (fun _ => 0) memory level root +
      weigh fanout child (fun step other => if step = lower ∧ other = table then 1 else 0)
        (fun _ => 0) memory level root ≤ occurrences fanout child memory table level root := by
    apply weigh_add_le
    · intro step other
      grind
    · exact fun _ => Nat.le_refl _
  have first := within.atTable_le
    (fun step other => if step = low ∧ other = table then 1 else 0) (fun _ => 0)
  have second := again.atTable_le
    (fun step other => if step = lower ∧ other = table then 1 else 0) (fun _ => 0)
  rw [if_pos ⟨rfl, rfl⟩] at first second
  omega

theorem occurrences_child (points : child level (memory root index) = some below) :
    occurrences fanout child memory table level below =
      part fanout child (fun _ other => if other = table then 1 else 0) (fun _ => 0) memory
        (level + 1) (memory root index) := by
  simp only [part, points, occurrences]

theorem occurrences_below_root (bound : index < fanout)
    (points : child level (memory root index) = some below)
    (once : occurrences fanout child memory root (level + 1) root ≤ 1) :
    occurrences fanout child memory root level below = 0 := by
  have single := Finset.single_le_sum
    (f := fun position => part fanout child (fun _ other => if other = root then 1 else 0)
      (fun _ => 0) memory (level + 1) (memory root position))
    (fun _ _ => Nat.zero_le _) (Finset.mem_range.mpr bound)
  rw [occurrences, weigh_eq, if_pos rfl] at once
  rw [occurrences_child points]
  omega

theorem occurrences_beside {other : Nat} {beside : A} (bound : index < fanout)
    (points : child level (memory root index) = some below) (otherBound : other < fanout)
    (different : other ≠ index) (otherPoints : child level (memory root other) = some beside) :
    occurrences fanout child memory table level below +
      occurrences fanout child memory table level beside ≤
      occurrences fanout child memory table (level + 1) root := by
  rw [occurrences_child points, occurrences_child otherPoints]
  exact two_parts_le_weigh bound otherBound different

/-- Changing a word of a table outside a tree does not change the tree. -/
theorem tally_setWord_absent (word : E)
    (absent : occurrences fanout child memory table level root = 0) :
    tally fanout child atTable atLevelWord (setWord memory table index word) level root =
      tally fanout child atTable atLevelWord memory level root := by
  apply tally_congr
  intro lower other inside position _
  have different : other ≠ table := by
    intro same
    subst same
    exact not_within_of_occurrences absent inside
  simp [setWord, different]

theorem weigh_setWord_absent (word : E)
    (absent : occurrences fanout child memory table level root = 0) :
    weigh fanout child atTable atWord (setWord memory table index word) level root =
      weigh fanout child atTable atWord memory level root := by
  rw [weigh_eq_tally, weigh_eq_tally]
  exact tally_setWord_absent word absent

/-- A path after a store existed before, or leads through the stored word. -/
theorem Within.of_setWord {inner : A} {word : E}
    (within : Within fanout child (setWord memory table index word) level root low inner) :
    Within fanout child memory level root low inner ∨ ∃ lower below,
      child lower word = some below ∧
        Within fanout child (setWord memory table index word) lower below low inner := by
  induction within with
  | here level table => exact Or.inl (.here level table)
  | under bound enters inside ih =>
      rename_i level low root below inner position
      by_cases stored : root = table ∧ position = index
      · rw [setWord, if_pos stored] at enters
        exact Or.inr ⟨level, below, enters, inside⟩
      · rw [setWord, if_neg stored] at enters
        rcases ih with before | through
        · exact Or.inl (.under bound enters before)
        · exact Or.inr through

theorem share_setWord_absent (word : E) {other : E}
    (absent : ∀ below lower, level = lower + 1 → child lower other = some below →
      occurrences fanout child memory table lower below = 0) :
    share fanout child atTable atLevelWord (setWord memory table index word) level other =
      share fanout child atTable atLevelWord memory level other := by
  cases level with
  | zero => rfl
  | succ level =>
      simp only [share]
      split
      · rename_i below points
        exact tally_setWord_absent word (absent below level rfl points)
      · rfl

/-- A changed word of a table that occurs once takes its old part out of the weight and
puts its new part in. -/
theorem Within.tally_setWord (within : Within fanout child memory level root low table)
    (atTable : Nat → A → Nat) (atLevelWord : Nat → E → Nat) (bound : index < fanout) (word : E)
    (once : occurrences fanout child memory table level root ≤ 1) :
    tally fanout child atTable atLevelWord (setWord memory table index word) level root +
        share fanout child atTable atLevelWord memory low (memory table index) =
      tally fanout child atTable atLevelWord memory level root +
        share fanout child atTable atLevelWord (setWord memory table index word) low word := by
  induction within with
  | here level table =>
      rw [tally_eq, tally_eq, ← Finset.add_sum_erase _ _ (Finset.mem_range.mpr bound),
        ← Finset.add_sum_erase (Finset.range fanout)
          (fun position => share fanout child atTable atLevelWord memory level (memory table position))
          (Finset.mem_range.mpr bound)]
      have written : setWord memory table index word table index = word := by simp [setWord]
      have others : ∑ position ∈ (Finset.range fanout).erase index,
            share fanout child atTable atLevelWord (setWord memory table index word) level
              (setWord memory table index word table position) =
          ∑ position ∈ (Finset.range fanout).erase index,
            share fanout child atTable atLevelWord memory level (memory table position) := by
        apply Finset.sum_congr rfl
        intro position member
        obtain ⟨different, inRange⟩ := Finset.mem_erase.mp member
        have same : setWord memory table index word table position = memory table position := by
          simp [setWord, different]
        rw [same]
        apply share_setWord_absent
        intro below lower isLevel points
        subst isLevel
        exact occurrences_below_root (Finset.mem_range.mp inRange) points once
      rw [written, others]
      omega
  | under first enters inside ih =>
      rename_i level low root below table entry
      have through : occurrences fanout child memory table level below ≤ 1 := by
        refine Nat.le_trans ?_ once
        rw [occurrences_child enters]
        exact part_le_weigh first
      have balance := ih through
      have apart : root ≠ table := by
        intro same
        subst same
        have none := occurrences_below_root first enters once
        exact not_within_of_occurrences none inside
      have entered : ∀ words : A → Nat → E,
          share fanout child atTable atLevelWord words (level + 1) (memory root entry) =
            tally fanout child atTable atLevelWord words level below := by
        intro words
        simp only [share, enters]
      have unchanged : ∀ position, setWord memory table index word root position =
          memory root position := by
        intro position
        simp [setWord, apart]
      have others : ∑ position ∈ (Finset.range fanout).erase entry,
            share fanout child atTable atLevelWord (setWord memory table index word) (level + 1)
              (memory root position) =
          ∑ position ∈ (Finset.range fanout).erase entry,
            share fanout child atTable atLevelWord memory (level + 1) (memory root position) := by
        apply Finset.sum_congr rfl
        intro position member
        obtain ⟨different, inRange⟩ := Finset.mem_erase.mp member
        apply share_setWord_absent
        intro beside lower isLevel points
        obtain rfl : level = lower := by omega
        have both : occurrences fanout child memory table level below +
            occurrences fanout child memory table level beside ≤
            occurrences fanout child memory table (level + 1) root :=
          occurrences_beside first enters (Finset.mem_range.mp inRange) different points
        have present := inside.occurs
        omega
      rw [tally_eq, tally_eq]
      simp only [unchanged]
      rw [← Finset.add_sum_erase _ _ (Finset.mem_range.mpr first),
        ← Finset.add_sum_erase (Finset.range fanout)
          (fun position => share fanout child atTable atLevelWord memory (level + 1)
            (memory root position)) (Finset.mem_range.mpr first), others, entered, entered]
      omega

theorem Within.weigh_setWord (within : Within fanout child memory level root low table)
    (atTable : Nat → A → Nat) (atWord : E → Nat) (bound : index < fanout) (word : E)
    (once : occurrences fanout child memory table level root ≤ 1) :
    weigh fanout child atTable atWord (setWord memory table index word) level root +
        part fanout child atTable atWord memory low (memory table index) =
      weigh fanout child atTable atWord memory level root +
        part fanout child atTable atWord (setWord memory table index word) low word := by
  rw [weigh_eq_tally, weigh_eq_tally, part_eq_share, part_eq_share]
  exact within.tally_setWord atTable _ bound word once

end Occurrences

/-- Read as a tree of one level less, a tree keeps its tables above the bottom. -/
theorem Within.raise (within : Within fanout child memory level root low table)
    (agree : ∀ lower table index, Within fanout child memory (level + 1) root (lower + 2) table →
      index < fanout → child lower (memory table index) = child (lower + 1) (memory table index)) :
    Within fanout child memory (level + 1) root (low + 1) table := by
  induction within with
  | here level table => exact .here _ table
  | under bound enters within ih =>
      rename_i level low root below table index
      have same := agree level root index (.here _ root) bound
      have upper := same.symm.trans enters
      refine .under bound upper (ih ?_)
      intro lower table position inside
      exact agree lower table position (.under bound upper inside)

/-- The tree of one level less weighs no more when its words weigh no more than the
tables they name. -/
theorem weigh_lower_le {lowTable : Nat → A → Nat} {lowWord : E → Nat} (level : Nat) (root : A)
    (tables : ∀ lower table, lowTable lower table ≤ atTable (lower + 1) table)
    (agree : ∀ lower table index, Within fanout child memory (level + 1) root (lower + 2) table →
      index < fanout → child lower (memory table index) = child (lower + 1) (memory table index))
    (words : ∀ table index, Within fanout child memory (level + 1) root 1 table →
      index < fanout → lowWord (memory table index) ≤
        part fanout child atTable atWord memory 1 (memory table index)) :
    weigh fanout child lowTable lowWord memory level root ≤
      weigh fanout child atTable atWord memory (level + 1) root := by
  induction level generalizing root with
  | zero =>
      rw [weigh_eq, weigh_eq]
      refine Nat.add_le_add (tables 0 root) (Finset.sum_le_sum fun index member => ?_)
      exact words root index (.here 1 root) (Finset.mem_range.mp member)
  | succ level ih =>
      rw [weigh_eq, weigh_eq]
      refine Nat.add_le_add (tables _ root) (Finset.sum_le_sum fun index member => ?_)
      have bound := Finset.mem_range.mp member
      have same := agree level root index (.here _ root) bound
      simp only [part, same]
      split
      · rename_i below points
        apply ih
        · intro lower table position inside
          exact agree lower table position (.under bound points inside)
        · intro table position inside
          exact words table position (.under bound points inside)
      · exact Nat.le_refl _

end RadixTree
