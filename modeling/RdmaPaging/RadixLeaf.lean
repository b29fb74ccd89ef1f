import RdmaPaging.RadixTree

/-!
Trees of tables whose words may be leaves at every level. A route ends at the first word
that names no table. A store to a word of a table that has one level in the tree is seen by
the routes through that word only, and in a tree without repeated tables a table has one
parent word.
-/

namespace RadixTree

variable {A E : Type*} (child : Nat → E → Option A)

/-- The table of level `low` that a route leads to. -/
@[grind =] def tableAt (memory : A → Nat → E) (route : Nat → Nat) (low : Nat) : Nat → A → Option A
  | 0, table => if low = 0 then some table else none
  | level + 1, table =>
      if low = level + 1 then some table
      else
        match child level (memory table (route (level + 1))) with
        | some below => tableAt memory route low level below
        | none => none

/-- The word at which a route ends, with its level. -/
@[grind =] def leafAt (memory : A → Nat → E) (route : Nat → Nat) : Nat → A → Nat × E
  | 0, table => (0, memory table (route 0))
  | level + 1, table =>
      match child level (memory table (route (level + 1))) with
      | some below => leafAt memory route level below
      | none => (level + 1, memory table (route (level + 1)))

/-- The end of a route through a word of a table of a level. -/
@[grind =] def leafFrom (memory : A → Nat → E) (route : Nat → Nat) : Nat → E → Nat × E
  | 0, word => (0, word)
  | level + 1, word =>
      match child level word with
      | some below => leafAt child memory route level below
      | none => (level + 1, word)

variable {child} {fanout : Nat} {memory next : A → Nat → E} {route other : Nat → Nat}
variable {level low : Nat} {root table below : A} {index : Nat}

theorem leafAt_eq (level : Nat) (table : A) :
    leafAt child memory route level table =
      leafFrom child memory route level (memory table (route level)) := by
  cases level <;> rfl

theorem tableAt_self (level : Nat) (table : A) :
    tableAt child memory route level level table = some table := by
  cases level <;> simp [tableAt]

/-- A route ends in the table that it leads to, at a word that names no further one. -/
theorem leafAt_table (memory : A → Nat → E) (route : Nat → Nat) (level : Nat) (root : A) :
    ∃ table, tableAt child memory route (leafAt child memory route level root).1 level root = some table ∧
      (leafAt child memory route level root).2 =
        memory table (route (leafAt child memory route level root).1) ∧
      (leafAt child memory route level root).1 ≤ level ∧
      ∀ low, (leafAt child memory route level root).1 = low + 1 →
        child low (leafAt child memory route level root).2 = none := by
  induction level generalizing root with
  | zero => exact ⟨root, rfl, rfl, Nat.le_refl _, fun low same => absurd same (by simp [leafAt])⟩
  | succ level ih =>
      cases enters : child level (memory root (route (level + 1))) with
      | none =>
          have ends : leafAt child memory route (level + 1) root =
              (level + 1, memory root (route (level + 1))) := by
            rw [leafAt, enters]
          rw [ends]
          refine ⟨root, tableAt_self _ _, rfl, Nat.le_refl _, fun low same => ?_⟩
          obtain rfl : level = low := Nat.succ.inj same
          exact enters
      | some below =>
          have further : leafAt child memory route (level + 1) root =
              leafAt child memory route level below := by
            rw [leafAt, enters]
          obtain ⟨table, leads, word, bound, ends⟩ := ih below
          rw [further]
          refine ⟨table, ?_, word, by omega, ends⟩
          rw [tableAt, if_neg (by omega), enters]
          exact leads

theorem tableAt_within (inRange : ∀ level, route level < fanout)
    (leads : tableAt child memory route low level root = some table) :
    Within fanout child memory level root low table := by
  induction level generalizing root with
  | zero =>
      simp only [tableAt] at leads
      split at leads
      · rename_i isLow
        rw [Option.some.injEq] at leads
        rw [leads, isLow]
        exact .here 0 table
      · exact absurd leads (by simp)
  | succ level ih =>
      simp only [tableAt] at leads
      split at leads
      · rename_i isLow
        rw [Option.some.injEq] at leads
        rw [leads, isLow]
        exact .here _ table
      · split at leads
        · rename_i below enters
          exact .under (inRange _) enters (ih leads)
        · exact absurd leads (by simp)

theorem tableAt_le (leads : tableAt child memory route low level root = some table) :
    low ≤ level := by
  induction level generalizing root with
  | zero =>
      simp only [tableAt] at leads
      split at leads
      · omega
      · exact absurd leads (by simp)
  | succ level ih =>
      simp only [tableAt] at leads
      split at leads
      · omega
      · split at leads
        · have deeper := ih leads
          omega
        · exact absurd leads (by simp)

/-- One more table on the way. -/
theorem tableAt_step
    (leads : tableAt child memory route (low + 1) level root = some table)
    (enters : child low (memory table (route (low + 1))) = some below) :
    tableAt child memory route low level root = some below := by
  induction level generalizing root with
  | zero => simp [tableAt] at leads
  | succ level ih =>
      have lower : low ≠ level + 1 := by
        have bound := tableAt_le leads
        omega
      simp only [tableAt, if_neg lower] at leads ⊢
      split at leads
      · rename_i isLow
        obtain rfl : low = level := by omega
        rw [Option.some.injEq] at leads
        rw [leads, enters]
        exact tableAt_self low below
      · split at leads
        · exact ih leads
        · exact absurd leads (by simp)

/-- A route whose pointers down to a table are kept leads to the same table. -/
theorem tableAt_mono_above (inRange : ∀ level, route level < fanout)
    (leads : tableAt child memory route low level root = some table)
    (kept : ∀ lower table index below, low ≤ lower →
      Within fanout child memory level root (lower + 1) table → index < fanout →
      child lower (memory table index) = some below → child lower (next table index) = some below) :
    tableAt child next route low level root = some table := by
  induction level generalizing root with
  | zero => exact leads
  | succ level ih =>
      simp only [tableAt] at leads ⊢
      split at leads
      · rename_i isLow
        rw [if_pos isLow]
        exact leads
      · rename_i notLow
        rw [if_neg notLow]
        split at leads
        · rename_i below enters
          rw [kept _ _ _ _ (tableAt_le leads) (.here _ root) (inRange _) enters]
          apply ih leads
          intro lower table index inner above inside
          exact kept lower table index inner above (.under (inRange _) enters inside)
        · exact absurd leads (by simp)

theorem tableAt_mono (inRange : ∀ level, route level < fanout)
    (leads : tableAt child memory route low level root = some table)
    (kept : ∀ lower table index below, Within fanout child memory level root (lower + 1) table →
      index < fanout → child lower (memory table index) = some below →
      child lower (next table index) = some below) :
    tableAt child next route low level root = some table :=
  tableAt_mono_above inRange leads fun lower table index below _ => kept lower table index below

theorem tableAt_congr (inRange : ∀ level, route level < fanout)
    (agree : ∀ low table, Within fanout child memory level root (low + 1) table →
      ∀ index < fanout, next table index = memory table index) :
    tableAt child next route low level root = tableAt child memory route low level root := by
  induction level generalizing root with
  | zero => rfl
  | succ level ih =>
      simp only [tableAt]
      rw [agree level root (.here _ root) _ (inRange _)]
      split
      · rfl
      · split
        · rename_i below enters
          apply ih
          intro low table inside
          exact agree low table (.under (inRange _) enters inside)
        · rfl

/-- The way to a table of a level takes its indices from the levels above. -/
theorem tableAt_route (agree : ∀ step, low < step → route step = other step) (bound : low ≤ level)
    (root : A) :
    tableAt child memory route low level root = tableAt child memory other low level root := by
  induction level generalizing root with
  | zero => rfl
  | succ level ih =>
      simp only [tableAt]
      split
      · rfl
      · rename_i lower
        rw [agree (level + 1) (by omega)]
        split
        · exact ih (by omega) _
        · rfl

theorem leafAt_of_tableAt (leads : tableAt child memory route low level root = some table) :
    leafAt child memory route level root = leafAt child memory route low table := by
  induction level generalizing root with
  | zero =>
      simp only [tableAt] at leads
      split at leads
      · rename_i isLow
        rw [Option.some.injEq] at leads
        rw [leads, isLow]
      · exact absurd leads (by simp)
  | succ level ih =>
      simp only [tableAt] at leads
      split at leads
      · rename_i isLow
        rw [Option.some.injEq] at leads
        rw [leads, isLow]
      · split at leads
        · rename_i below enters
          rw [← ih leads]
          simp only [leafAt, enters]
        · exact absurd leads (by simp)

/-- A route ends at the lowest level if it leads to a table there. -/
theorem leafAt_lowest (level : Nat) (root : A) :
    (leafAt child memory route level root).1 = 0 ↔
      ∃ table, tableAt child memory route 0 level root = some table := by
  induction level generalizing root with
  | zero => simp [leafAt, tableAt]
  | succ level ih =>
      have higher : ¬ 0 = level + 1 := by omega
      simp only [leafAt, tableAt, if_neg higher]
      split
      · exact ih _
      · simp

theorem leafAt_le (level : Nat) (root : A) : (leafAt child memory route level root).1 ≤ level := by
  induction level generalizing root with
  | zero => exact Nat.le_refl _
  | succ level ih =>
      simp only [leafAt]
      split
      · exact Nat.le_succ_of_le (ih _)
      · exact Nat.le_refl _

/-- The end of a route takes its indices from its own level and those above. -/
theorem leafAt_shared (deep : low ≤ (leafAt child memory route level root).1)
    (same : ∀ step, low ≤ step → step ≤ level → other step = route step) :
    leafAt child memory other level root = leafAt child memory route level root := by
  induction level generalizing root with
  | zero =>
      simp only [leafAt] at deep ⊢
      rw [same 0 deep (Nat.le_refl _)]
  | succ level ih =>
      simp only [leafAt] at deep ⊢
      split at deep
      · rename_i below enters
        have bound : low ≤ level + 1 := Nat.le_trans deep (Nat.le_succ_of_le (leafAt_le level below))
        rw [same (level + 1) bound (Nat.le_refl _), enters]
        exact ih deep fun step above upper => same step above (by omega)
      · rename_i ends
        rw [same (level + 1) deep (Nat.le_refl _), ends]

theorem leafAt_congr (inRange : ∀ level, route level < fanout)
    (agree : ∀ low table, Within fanout child memory level root low table →
      ∀ index < fanout, next table index = memory table index) :
    leafAt child next route level root = leafAt child memory route level root := by
  induction level generalizing root with
  | zero => rw [leafAt, leafAt, agree 0 root (.here 0 root) _ (inRange 0)]
  | succ level ih =>
      simp only [leafAt]
      rw [agree (level + 1) root (.here _ root) _ (inRange _)]
      split
      · rename_i below enters
        apply ih
        intro low table inside
        exact agree low table (.under (inRange _) enters inside)
      · rfl

theorem Within.cases_succ (within : Within fanout child memory (level + 1) root low table) :
    (low = level + 1 ∧ table = root) ∨ ∃ index below, index < fanout ∧
      child level (memory root index) = some below ∧
        Within fanout child memory level below low table := by
  cases within with
  | here => exact Or.inl ⟨rfl, rfl⟩
  | under bound enters inside => exact Or.inr ⟨_, _, bound, enters, inside⟩

/-- A table stays where the pointers down to it are kept. -/
theorem Within.mono_above (within : Within fanout child memory level root low table)
    (kept : ∀ lower table index below, low ≤ lower →
      Within fanout child memory level root (lower + 1) table → index < fanout →
      child lower (memory table index) = some below → child lower (next table index) = some below) :
    Within fanout child next level root low table := by
  induction within with
  | here level table => exact .here level table
  | under bound enters inside ih =>
      refine .under bound (kept _ _ _ _ inside.low_le (.here _ _) bound enters) (ih ?_)
      intro lower table index below above deeper
      exact kept lower table index below above (.under bound enters deeper)

/-- A table is the root or is named by a word. -/
theorem Within.parent (within : Within fanout child memory level root low table) :
    (low = level ∧ table = root) ∨ ∃ dir index,
      Within fanout child memory level root (low + 1) dir ∧ index < fanout ∧
        child low (memory dir index) = some table := by
  induction within with
  | here => exact Or.inl ⟨rfl, rfl⟩
  | under bound enters inside ih =>
      right
      rcases ih with ⟨rfl, rfl⟩ | ⟨dir, position, above, inTable, names⟩
      · exact ⟨_, _, .here _ _, bound, enters⟩
      · exact ⟨dir, position, .under bound enters above, inTable, names⟩

section Store

variable [DecidableEq A]

/-- A store to a word of a table of one level is seen by the routes through the word. -/
theorem leafAt_setWord (index : Nat) (word : E) (inRange : ∀ level, route level < fanout)
    (levels : ∀ step, Within fanout child memory level root step table → step = low) :
    leafAt child (setWord memory table index word) route level root =
      if tableAt child memory route low level root = some table ∧ route low = index then
        leafFrom child (setWord memory table index word) route low word
      else leafAt child memory route level root := by
  induction level generalizing root with
  | zero =>
      by_cases same : root = table
      · subst same
        obtain rfl : 0 = low := levels 0 (.here 0 root)
        by_cases hit : route 0 = index <;> simp [leafAt, leafFrom, tableAt, setWord, hit]
      · have elsewhere : tableAt child memory route low 0 root ≠ some table := by
          simp only [tableAt]
          split <;> simp [same]
        simp [leafAt, setWord, same, elsewhere]
  | succ level ih =>
      have below : ∀ inner, child level (memory root (route (level + 1))) = some inner →
          ∀ step, Within fanout child memory level inner step table → step = low := by
        intro inner enters step inside
        exact levels step (.under (inRange _) enters inside)
      by_cases same : root = table
      · subst same
        obtain rfl : level + 1 = low := levels _ (.here _ root)
        rw [leafAt_eq, leafAt_eq, tableAt_self]
        by_cases hit : route (level + 1) = index
        · simp [setWord, hit]
        · have stored : setWord memory root index word root (route (level + 1)) =
              memory root (route (level + 1)) := by simp [setWord, hit]
          rw [stored, if_neg (by simp [hit])]
          simp only [leafFrom]
          split
          · rename_i inner enters
            apply leafAt_congr inRange
            intro step inside within position _
            have apart : inside ≠ root := by
              rintro rfl
              have atTop := below inner enters step within
              have lower := within.low_le
              omega
            simp [setWord, apart]
          · rfl
      · have stored : setWord memory table index word root (route (level + 1)) =
            memory root (route (level + 1)) := by simp [setWord, same]
        rcases enters : child level (memory root (route (level + 1))) with _ | inner
        · have elsewhere : tableAt child memory route low (level + 1) root ≠ some table := by
            simp only [tableAt, enters]
            split <;> simp [same]
          simp [leafAt, stored, enters, elsewhere]
        · simp only [leafAt, stored, enters]
          rw [ih (below inner enters)]
          by_cases top : low = level + 1
          · have above : ¬ (tableAt child memory route low level inner = some table ∧
                route low = index) := by
              rintro ⟨leads, _⟩
              have bound := tableAt_le leads
              omega
            rw [if_neg above, if_neg]
            simp [tableAt, top, same]
          · simp only [tableAt, if_neg top, enters]

/-- A store to a table does not change the way to it. -/
theorem tableAt_setWord (index : Nat) (word : E) (inRange : ∀ level, route level < fanout)
    (levels : ∀ step, Within fanout child memory level root step table → step = low)
    (leads : tableAt child memory route low level root = some table) :
    tableAt child (setWord memory table index word) route low level root = some table := by
  induction level generalizing root with
  | zero => exact leads
  | succ level ih =>
      simp only [tableAt] at leads ⊢
      split at leads
      · rename_i isLow
        rw [if_pos isLow]
        exact leads
      · rename_i notLow
        have apart : root ≠ table := by
          rintro rfl
          exact notLow (levels _ (.here _ root)).symm
        have stored : setWord memory table index word root (route (level + 1)) =
            memory root (route (level + 1)) := by simp [setWord, apart]
        rw [if_neg notLow, stored]
        split at leads
        · rename_i below enters
          apply ih _ leads
          intro step inside
          exact levels step (.under (inRange _) enters inside)
        · exact absurd leads (by simp)

/-- Storing a leaf adds no table to a tree. -/
theorem Within.of_leaf {word : E} {step : Nat} {inner : A}
    (within : Within fanout child (setWord memory table index word) level root step inner)
    (levels : ∀ step, Within fanout child memory level root step table → step = low)
    (leaf : ∀ lower, low = lower + 1 → child lower word = none) :
    Within fanout child memory level root step inner := by
  induction within with
  | here level table => exact .here level table
  | under bound enters within ih =>
      rename_i level step root below inner position
      by_cases stored : root = table ∧ position = index
      · obtain ⟨rfl, rfl⟩ := stored
        have isLow := levels _ (.here _ root)
        rw [setWord, if_pos ⟨rfl, rfl⟩, leaf level isLow.symm] at enters
        exact absurd enters (by simp)
      · rw [setWord, if_neg stored] at enters
        refine .under bound enters (ih ?_)
        intro step inside
        exact levels step (.under bound enters inside)

/-- In a tree without repeated tables the routes to a table agree. -/
theorem tableAt_unique (inRange : ∀ level, route level < fanout)
    (otherInRange : ∀ level, other level < fanout)
    (once : occurrences fanout child memory table level root ≤ 1)
    (leads : tableAt child memory route low level root = some table)
    (otherLeads : tableAt child memory other low level root = some table) :
    ∀ step, low < step → step ≤ level → route step = other step := by
  induction level generalizing root with
  | zero => exact fun step above bound => by omega
  | succ level ih =>
      by_cases top : low = level + 1
      · exact fun step above bound => by omega
      · simp only [tableAt, if_neg top] at leads otherLeads
        split at leads
        · rename_i below enters
          split at otherLeads
          · rename_i beside entersBeside
            have here := (tableAt_within inRange leads).occurs
            have there := (tableAt_within otherInRange otherLeads).occurs
            have first : route (level + 1) = other (level + 1) := by
              by_contra different
              have both : occurrences fanout child memory table level below +
                  occurrences fanout child memory table level beside ≤
                  occurrences fanout child memory table (level + 1) root :=
                occurrences_beside (inRange _) enters (otherInRange _) (Ne.symm different)
                  entersBeside
              omega
            rw [← first, enters, Option.some.injEq] at entersBeside
            subst entersBeside
            have through : occurrences fanout child memory table level below ≤ 1 := by
              refine Nat.le_trans ?_ once
              rw [occurrences_child enters]
              exact part_le_weigh (inRange _)
            intro step above bound
            by_cases isTop : step = level + 1
            · rw [isTop]
              exact first
            · exact ih through leads otherLeads step above (by omega)
          · exact absurd otherLeads (by simp)
        · exact absurd leads (by simp)

theorem occurrences_through (bound : index < fanout)
    (enters : child level (memory root index) = some below) :
    occurrences fanout child memory table level below ≤
      occurrences fanout child memory table (level + 1) root := by
  rw [occurrences_child enters]
  exact part_le_weigh bound

/-- How often a table occurs depends on the pointers only. -/
theorem occurrences_pointers
    (pointers : ∀ low inner, Within fanout child memory level root (low + 1) inner →
      ∀ index < fanout, child low (next inner index) = child low (memory inner index)) :
    occurrences fanout child next table level root = occurrences fanout child memory table level root := by
  induction level generalizing root with
  | zero => rfl
  | succ level ih =>
      simp only [occurrences, weigh] at ih ⊢
      congr 1
      apply Finset.sum_congr rfl
      intro index member
      have bound := Finset.mem_range.mp member
      rw [pointers level root (.here _ root) index bound]
      split
      · rename_i below names
        exact ih fun low inner inside => pointers low inner (.under bound names inside)
      · rfl

/-- A table that occurs once is not named by a root and again from further down. -/
theorem not_named_twice {dir below : A} {lower position otherIndex : Nat}
    (once : occurrences fanout child memory table (level + 1) root ≤ 1) (bound : index < fanout)
    (names : child level (memory root index) = some table) (positionBound : position < fanout)
    (enters : child level (memory root position) = some below)
    (inside : Within fanout child memory level below (lower + 1) dir)
    (otherBound : otherIndex < fanout)
    (otherNames : child lower (memory dir otherIndex) = some table) : False := by
  have deeper := inside.step otherBound otherNames
  by_cases same : position = index
  · subst same
    rw [names, Option.some.injEq] at enters
    subst enters
    have isLevel := (Within.here level table).low_unique deeper
      (Nat.le_trans (occurrences_through positionBound names) once)
    have lowLevel := inside.low_le
    omega
  · have both : occurrences fanout child memory table level table +
        occurrences fanout child memory table level below ≤
        occurrences fanout child memory table (level + 1) root :=
      occurrences_beside bound names positionBound same enters
    have first : 1 ≤ occurrences fanout child memory table level table :=
      (Within.here level table).occurs
    have second := deeper.occurs
    omega

/-- A table that occurs once in a tree is named by one word. -/
theorem parent_unique {dir otherDir : A} {lower otherIndex : Nat}
    (once : occurrences fanout child memory table level root ≤ 1)
    (inside : Within fanout child memory level root (low + 1) dir) (bound : index < fanout)
    (names : child low (memory dir index) = some table)
    (otherInside : Within fanout child memory level root (lower + 1) otherDir)
    (otherBound : otherIndex < fanout)
    (otherNames : child lower (memory otherDir otherIndex) = some table) :
    low = lower ∧ dir = otherDir ∧ index = otherIndex := by
  induction level generalizing root with
  | zero =>
      have impossible := inside.low_le
      omega
  | succ level ih =>
      rcases inside.cases_succ with ⟨isTop, rfl⟩ | ⟨position, below, inRange, enters, deeper⟩
      · obtain rfl : low = level := by omega
        rcases otherInside.cases_succ with
          ⟨otherTop, rfl⟩ | ⟨position, below, inRange, enters, deeper⟩
        · obtain rfl : lower = low := by omega
          refine ⟨rfl, rfl, ?_⟩
          by_contra different
          have both : occurrences fanout child memory table lower table +
              occurrences fanout child memory table lower table ≤
              occurrences fanout child memory table (lower + 1) otherDir :=
            occurrences_beside bound names otherBound (Ne.symm different) otherNames
          have here : 1 ≤ occurrences fanout child memory table lower table :=
            (Within.here lower table).occurs
          omega
        · exact (not_named_twice once bound names inRange enters deeper otherBound
            otherNames).elim
      · rcases otherInside.cases_succ with
          ⟨otherTop, rfl⟩ | ⟨otherPosition, beside, otherInRange, otherEnters, otherDeeper⟩
        · obtain rfl : lower = level := by omega
          exact (not_named_twice once otherBound otherNames inRange enters deeper bound
            names).elim
        · have here := (deeper.step bound names).occurs
          have there := (otherDeeper.step otherBound otherNames).occurs
          have same : position = otherPosition := by
            by_contra different
            have both : occurrences fanout child memory table level below +
                occurrences fanout child memory table level beside ≤
                occurrences fanout child memory table (level + 1) root :=
              occurrences_beside inRange enters otherInRange (Ne.symm different) otherEnters
            omega
          subst same
          rw [enters, Option.some.injEq] at otherEnters
          subst otherEnters
          exact ih (Nat.le_trans (occurrences_through inRange enters) once) deeper otherDeeper

theorem exists_within_of_occurrences
    (occurs : occurrences fanout child memory table level root ≠ 0) :
    ∃ low, Within fanout child memory level root low table := by
  by_contra nowhere
  apply occurs
  apply weigh_eq_zero
  · intro lower other inside
    rw [if_neg]
    rintro rfl
    exact nowhere ⟨lower, inside⟩
  · exact fun _ _ _ _ => rfl

end Store

section Grow

variable [DecidableEq A]

/-- Blank a page and name it by a word of a table. -/
@[grind =] def grow (memory : A → Nat → E) (page : A) (blank : E) (table : A) (index : Nat) (word : E) :
    A → Nat → E :=
  setWord (fun other position => if other = page then blank else memory other position) table
    index word

variable {page : A} {blank word : E}

theorem blanked_agree (absent : occurrences fanout child memory page level root = 0) {step : Nat}
    {inner : A} (inside : Within fanout child memory level root step inner) (position : Nat) :
    (if inner = page then blank else memory inner position) = memory inner position := by
  rw [if_neg]
  rintro rfl
  exact not_within_of_occurrences absent inside

theorem grow_page (apart : page ≠ table) (position : Nat) :
    grow memory page blank table index word page position = blank := by
  simp [grow, setWord, apart]

theorem Within.ne_absent (inside : Within fanout child memory level root low table)
    (absent : occurrences fanout child memory page level root = 0) : page ≠ table := by
  rintro rfl
  exact not_within_of_occurrences absent inside

/-- A new blank table adds its own weight only. -/
theorem Within.tally_grow (inside : Within fanout child memory level root (low + 1) table)
    (atTable : Nat → A → Nat) (atLevelWord : Nat → E → Nat) (bound : index < fanout)
    (once : occurrences fanout child memory table level root ≤ 1)
    (absent : occurrences fanout child memory page level root = 0)
    (pointless : ∀ level, child level blank = none)
    (weightless : ∀ level, atLevelWord level blank = 0)
    (empty : child low (memory table index) = none)
    (light : atLevelWord (low + 1) (memory table index) = 0)
    (names : child low word = some page) :
    tally fanout child atTable atLevelWord (grow memory page blank table index word) level root =
      tally fanout child atTable atLevelWord memory level root + atTable low page := by
  have apart := inside.ne_absent absent
  have same : ∀ lower other, Within fanout child memory level root lower other →
      ∀ position < fanout, (if other = page then blank else memory other position) =
        memory other position := fun _ _ within position _ => blanked_agree absent within position
  have blanked := inside.congr (fun lower other within => same (lower + 1) other within)
  have balance := blanked.tally_setWord atTable atLevelWord bound word
    (by rw [occurrences, weigh_congr level root same]; exact once)
  rw [tally_congr level root same] at balance
  have old : share fanout child atTable atLevelWord
      (fun other position => if other = page then blank else memory other position) (low + 1)
      (if table = page then blank else memory table index) = 0 := by
    rw [if_neg apart.symm]
    simp only [share, empty, light]
  have new : share fanout child atTable atLevelWord (grow memory page blank table index word)
      (low + 1) word = atTable low page := by
    simp only [share, names]
    exact tally_blank low page (fun position _ => grow_page apart position) pointless weightless
  rw [old] at balance
  rw [← grow, new] at balance
  exact balance

theorem grow_keeps (absent : occurrences fanout child memory page level root = 0)
    (empty : ∀ lower, child lower (memory table index) = none) (lower : Nat) (inner : A)
    (position : Nat) (below : A) (inside : Within fanout child memory level root (lower + 1) inner)
    (points : child lower (memory inner position) = some below) :
    child lower (grow memory page blank table index word inner position) = some below := by
  have elsewhere : ¬ (inner = table ∧ position = index) := by
    rintro ⟨rfl, rfl⟩
    rw [empty lower] at points
    exact absurd points (by simp)
  rw [grow, setWord, if_neg elsewhere, blanked_agree absent inside]
  exact points

theorem Within.grown {step : Nat} {inner : A}
    (inside : Within fanout child memory level root step inner)
    (absent : occurrences fanout child memory page level root = 0)
    (empty : ∀ lower, child lower (memory table index) = none) :
    Within fanout child (grow memory page blank table index word) level root step inner := by
  apply inside.mono
  intro lower other position below within _ points
  exact grow_keeps absent empty lower other position below within points

theorem Within.of_grow {step : Nat} {inner : A}
    (inside : Within fanout child (grow memory page blank table index word) level root step inner)
    (absent : occurrences fanout child memory page level root = 0) (apart : page ≠ table)
    (pointless : ∀ level, child level blank = none)
    (names : ∀ lower, child lower word = some page) :
    Within fanout child memory level root step inner ∨ inner = page := by
  rcases Within.of_setWord inside with before | ⟨lower, below, points, through⟩
  · refine Or.inl (before.of_congr ?_)
    intro lower other within position _
    exact blanked_agree absent within position
  · rw [names lower, Option.some.injEq] at points
    subst points
    exact Or.inr (through.of_blank (fun position _ => grow_page apart position) pointless)

/-- A new blank table is seen by the routes through its word only, and they end in it. -/
theorem leafAt_grow (index : Nat) (inRange : ∀ level, route level < fanout)
    (inside : Within fanout child memory level root (low + 1) table)
    (once : occurrences fanout child memory table level root ≤ 1)
    (absent : occurrences fanout child memory page level root = 0)
    (pointless : ∀ level, child level blank = none) (names : child low word = some page) :
    leafAt child (grow memory page blank table index word) route level root =
      if tableAt child memory route (low + 1) level root = some table ∧ route (low + 1) = index
      then (low, blank) else leafAt child memory route level root := by
  have apart := inside.ne_absent absent
  have same : ∀ lower other, Within fanout child memory level root lower other →
      ∀ position < fanout, (if other = page then blank else memory other position) =
        memory other position := fun _ _ within position _ => blanked_agree absent within position
  have levels : ∀ step, Within fanout child
      (fun other position => if other = page then blank else memory other position) level root
      step table → step = low + 1 := by
    intro step within
    have before := within.of_congr (fun lower other within => same (lower + 1) other within)
    exact before.low_unique inside once
  have kept : tableAt child
      (fun other position => if other = page then blank else memory other position) route (low + 1)
      level root = tableAt child memory route (low + 1) level root :=
    tableAt_congr inRange fun lower other within => same (lower + 1) other within
  have end_ : leafFrom child (grow memory page blank table index word) route (low + 1) word =
      (low, blank) := by
    simp only [leafFrom, names]
    cases low with
    | zero => simp only [leafAt, grow_page apart]
    | succ low => simp only [leafAt, grow_page apart, pointless]
  rw [grow, leafAt_setWord index word inRange levels, kept, leafAt_congr inRange same, ← grow, end_]

end Grow

end RadixTree
