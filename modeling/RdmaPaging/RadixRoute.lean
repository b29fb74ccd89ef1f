import RdmaPaging.RadixTree

/-!
Routes through a tree of tables. A route picks the index to follow at each level, so it
leads to at most one table of level 0 and one word. In a tree without repeated tables
two routes to the same table agree, and a store to a word of level 0 is seen by the
routes to that word only.
-/

namespace RadixTree

variable {A E : Type*} (child : Nat → E → Option A) (blank : E)

/-- The table of level 0 that a route leads to. -/
@[grind =] def reach (memory : A → Nat → E) (route : Nat → Nat) : Nat → A → Option A
  | 0, table => some table
  | level + 1, table =>
      match child level (memory table (route (level + 1))) with
      | some below => reach memory route level below
      | none => none

/-- The word that a route leads to, blank if the route breaks off. -/
@[grind =] def wordAt (memory : A → Nat → E) (route : Nat → Nat) : Nat → A → E
  | 0, table => memory table (route 0)
  | level + 1, table =>
      match child level (memory table (route (level + 1))) with
      | some below => wordAt memory route level below
      | none => blank

variable {child blank} {fanout : Nat} {memory next : A → Nat → E} {route other : Nat → Nat}
variable {level : Nat} {root leaf : A}

theorem wordAt_of_reach (reaches : reach child memory route level root = some leaf) :
    wordAt child blank memory route level root = memory leaf (route 0) := by
  induction level generalizing root with
  | zero =>
      simp only [reach, Option.some.injEq] at reaches
      rw [wordAt, reaches]
  | succ level ih =>
      simp only [reach] at reaches
      simp only [wordAt]
      split at reaches
      · exact ih reaches
      · exact absurd reaches (by simp)

theorem wordAt_of_broken (breaks : reach child memory route level root = none) :
    wordAt child blank memory route level root = blank := by
  induction level generalizing root with
  | zero => simp [reach] at breaks
  | succ level ih =>
      simp only [reach] at breaks
      simp only [wordAt]
      split at breaks
      · exact ih breaks
      · rfl

theorem reach_within (inRange : ∀ level, route level < fanout)
    (reaches : reach child memory route level root = some leaf) :
    Within fanout child memory level root 0 leaf := by
  induction level generalizing root with
  | zero =>
      simp only [reach, Option.some.injEq] at reaches
      rw [reaches]
      exact .here 0 leaf
  | succ level ih =>
      simp only [reach] at reaches
      split at reaches
      · rename_i below points
        exact .under (inRange _) points (ih reaches)
      · exact absurd reaches (by simp)

/-- A route does not depend on the tables of level 0. -/
theorem reach_congr (inRange : ∀ level, route level < fanout)
    (agree : ∀ low table, Within fanout child memory level root (low + 1) table →
      ∀ index < fanout, next table index = memory table index) :
    reach child next route level root = reach child memory route level root := by
  induction level generalizing root with
  | zero => rfl
  | succ level ih =>
      simp only [reach]
      rw [agree level root (.here _ root) _ (inRange _)]
      split
      · rename_i below enters
        apply ih
        intro low table inside
        exact agree low table (.under (inRange _) enters inside)
      · rfl

theorem wordAt_blank (pointless : ∀ level, child level blank = none)
    (inRange : ∀ level, route level < fanout)
    (cleared : ∀ index < fanout, memory root index = blank) :
    wordAt child blank memory route level root = blank := by
  cases level with
  | zero => exact cleared _ (inRange 0)
  | succ level => simp only [wordAt, cleared _ (inRange _), pointless]

/-- New empty tables in empty places change no word. -/
theorem wordAt_grown (pointless : ∀ level, child level blank = none)
    (inRange : ∀ level, route level < fanout)
    (grown : ∀ low table index, Within fanout child memory level root low table → index < fanout →
      next table index = memory table index ∨ ∃ lower page, low = lower + 1 ∧
        child lower (memory table index) = none ∧ child lower (next table index) = some page ∧
        ∀ position < fanout, next page position = blank) :
    wordAt child blank next route level root = wordAt child blank memory route level root := by
  induction level generalizing root with
  | zero =>
      rcases grown 0 root (route 0) (.here 0 root) (inRange 0) with same | ⟨lower, _, isLow, _⟩
      · exact same
      · omega
  | succ level ih =>
      simp only [wordAt]
      rcases grown (level + 1) root (route (level + 1)) (.here _ root) (inRange _) with
        same | ⟨lower, page, isLow, absent, points, cleared⟩
      · rw [same]
        split
        · rename_i below enters
          apply ih
          intro low table index inside
          exact grown low table index (.under (inRange _) enters inside)
        · rfl
      · obtain rfl : level = lower := by omega
        rw [points, absent]
        exact wordAt_blank pointless inRange cleared

theorem wordAt_route (same : ∀ low ≤ level, other low = route low) :
    wordAt child blank memory other level root = wordAt child blank memory route level root := by
  induction level generalizing root with
  | zero => rw [wordAt, wordAt, same 0 (Nat.le_refl _)]
  | succ level ih =>
      simp only [wordAt]
      rw [same (level + 1) (Nat.le_refl _)]
      split
      · exact ih fun low bound => same low (by omega)
      · rfl

theorem wordAt_congr (inRange : ∀ level, route level < fanout)
    (agree : ∀ low table, Within fanout child memory level root low table →
      ∀ index < fanout, next table index = memory table index) :
    wordAt child blank next route level root = wordAt child blank memory route level root := by
  induction level generalizing root with
  | zero => exact agree 0 root (.here 0 root) _ (inRange 0)
  | succ level ih =>
      simp only [wordAt]
      rw [agree (level + 1) root (.here _ root) _ (inRange _)]
      split
      · rename_i below enters
        apply ih
        intro low table inside
        exact agree low table (.under (inRange _) enters inside)
      · rfl

section Store

variable [DecidableEq A]

/-- A store to a word of a table of level 0 is seen by the routes that lead to it. -/
theorem wordAt_setWord (position : Nat) (word : E) (inRange : ∀ level, route level < fanout)
    (bottom : ∀ low, ¬ Within fanout child memory level root (low + 1) leaf) :
    wordAt child blank (setWord memory leaf position word) route level root =
      if reach child memory route level root = some leaf ∧ route 0 = position then word
      else wordAt child blank memory route level root := by
  induction level generalizing root with
  | zero => simp [wordAt, reach, setWord]
  | succ level ih =>
      have apart : root ≠ leaf := by
        rintro rfl
        exact bottom level (.here _ root)
      have same : setWord memory leaf position word root (route (level + 1)) =
          memory root (route (level + 1)) := by simp [setWord, apart]
      rcases enters : child level (memory root (route (level + 1))) with _ | below
      · simp [wordAt, reach, same, enters]
      · simp only [wordAt, reach, same, enters]
        apply ih
        intro low inside
        exact bottom low (.under (inRange _) enters inside)

/-- In a tree without repeated tables the routes to a table agree. -/
theorem reach_unique (inRange : ∀ level, route level < fanout)
    (otherInRange : ∀ level, other level < fanout)
    (once : occurrences fanout child memory leaf level root ≤ 1)
    (reaches : reach child memory route level root = some leaf)
    (otherReaches : reach child memory other level root = some leaf) :
    ∀ low < level, route (low + 1) = other (low + 1) := by
  induction level generalizing root with
  | zero => exact fun low bound => absurd bound (Nat.not_lt_zero low)
  | succ level ih =>
      simp only [reach] at reaches otherReaches
      split at reaches
      · rename_i below enters
        split at otherReaches
        · rename_i beside entersBeside
          have here := (reach_within inRange reaches).occurs
          have there := (reach_within otherInRange otherReaches).occurs
          have top : route (level + 1) = other (level + 1) := by
            by_contra different
            have both : occurrences fanout child memory leaf level below +
                occurrences fanout child memory leaf level beside ≤
                occurrences fanout child memory leaf (level + 1) root :=
              occurrences_beside (inRange _) enters (otherInRange _) (Ne.symm different) entersBeside
            omega
          rw [← top, enters, Option.some.injEq] at entersBeside
          subst entersBeside
          have through : occurrences fanout child memory leaf level below ≤ 1 := by
            refine Nat.le_trans ?_ once
            rw [occurrences_child enters]
            exact part_le_weigh (inRange _)
          intro low bound
          by_cases isTop : low = level
          · rw [isTop]
            exact top
          · exact ih through reaches otherReaches low (by omega)
        · exact absurd otherReaches (by simp)
      · exact absurd reaches (by simp)

end Store

end RadixTree
