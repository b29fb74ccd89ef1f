import RdmaPaging.VmVisits

/-!
A rule for walks over a range with entries of every size. A walk goes through the entries of
the tables in the order of addresses, and it may overwrite a pointer to a table by a big page.
What a walk of a table of some level does leaves the pointers above that level alone, so the
walk stays on its way.
-/

namespace RdmaPaging

open RadixTree

variable {mem middle next : PhysAddr → Nat → Ptent} {root : PhysAddr}

/-- Every pointer of the tree to a table of `level` or above is still there. -/
def PointersFrom (root : PhysAddr) (level : Nat) (mem next : PhysAddr → Nat → Ptent) : Prop :=
  ∀ low dir index below, level ≤ low → (treeOf root).Table mem (low + 1) dir → index < nptentries →
    tableOf low (mem dir index) = some below → tableOf low (next dir index) = some below

/-- The way of the addresses with an offset in the 48 translated bits to their table. -/
def tableFor (mem : PhysAddr → Nat → Ptent) (root : PhysAddr) (low offset : Nat) : Option PhysAddr :=
  tableAt tableOf mem (fun step => pdx step offset) low 3 root

theorem PointersFrom.refl (level : Nat) : PointersFrom root level mem mem :=
  fun _ _ _ _ _ _ _ names => names

theorem PointersFrom.mono {level lower : Nat} (keeps : PointersFrom root lower mem next)
    (above : lower ≤ level) : PointersFrom root level mem next :=
  fun low dir index below bound => keeps low dir index below (Nat.le_trans above bound)

theorem tableFor_table {low offset : Nat} {dir : PhysAddr} (leads : tableFor mem root low offset = some dir) :
    (treeOf root).Table mem low dir :=
  tableAt_within (fun step => pdx_bound step offset) leads

theorem PointersFrom.tableFor {level low offset : Nat} {dir : PhysAddr}
    (keeps : PointersFrom root level mem next) (above : level ≤ low)
    (leads : tableFor mem root low offset = some dir) : tableFor next root low offset = some dir :=
  tableAt_mono_above (fun step => pdx_bound step offset) leads fun lower table index below bound =>
    keeps lower table index below (Nat.le_trans above bound)

theorem PointersFrom.table {level low : Nat} {dir : PhysAddr} (keeps : PointersFrom root level mem next)
    (above : level ≤ low) (table : (treeOf root).Table mem low dir) :
    (treeOf root).Table next low dir :=
  Within.mono_above table fun lower inner index below bound =>
    keeps lower inner index below (Nat.le_trans above bound)

theorem PointersFrom.trans {level : Nat} (first : PointersFrom root level mem middle)
    (second : PointersFrom root level middle next) : PointersFrom root level mem next :=
  fun low dir index below bound table position names =>
    second low dir index below bound (first.table (by omega) table) position
      (first low dir index below bound table position names)

/-- The offset's entry of level `low` is between those of two addresses of a table of a level. -/
def Between (level low startVa endVa offset : Nat) : Prop :=
  startVa % entrySpan (level + 1) / entrySpan low ≤ offset / entrySpan low ∧
    offset / entrySpan low ≤ endVa % entrySpan (level + 1) / entrySpan low

/-- The walk from `startVa` to `endVa` of the table `dir` as a part of that of the root from
`firstVa` to `lastVa`. The table spans the offsets from `base` on. -/
structure SubWalk (mem : PhysAddr → Nat → Ptent) (root : PhysAddr) (firstVa lastVa level : Nat)
    (dir : PhysAddr) (startVa endVa base : Nat) : Prop where
  table : tableFor mem root level base = some dir
  aligned : entrySpan (level + 1) ∣ base
  inside : base + entrySpan (level + 1) ≤ 2 ^ 48
  block : blockStart level startVa = blockStart 3 firstVa + base
  range : ∀ low ≤ level, ∀ rest < entrySpan (level + 1),
    Between level low startVa endVa rest → Between 3 low firstVa lastVa (base + rest)

theorem subWalk_top (mem : PhysAddr → Nat → Ptent) (root : PhysAddr) (firstVa lastVa : Nat) :
    SubWalk mem root firstVa lastVa 3 root firstVa lastVa 0 where
  table := tableAt_self 3 root
  aligned := Nat.dvd_zero _
  inside := Nat.le_of_eq (Nat.zero_add _)
  block := (Nat.add_zero _).symm
  range := by
    intro low _ rest _ between
    rw [Nat.zero_add]
    exact between

/-- The indices above a table are those of the first address that it spans. -/
theorem pdx_above {level step base rest : Nat} (aligned : entrySpan (level + 1) ∣ base)
    (inside : rest < entrySpan (level + 1)) (above : level < step) :
    pdx step (base + rest) = pdx step base := by
  obtain ⟨width, span⟩ := entrySpan_dvd (show level + 1 ≤ step by omega)
  obtain ⟨times, rfl⟩ := aligned
  have pos := entrySpan_pos (level + 1)
  rw [pdx_eq, pdx_eq, span, ← Nat.div_div_eq_div_mul, ← Nat.div_div_eq_div_mul,
    Nat.mul_add_div pos, Nat.div_eq_of_lt inside, Nat.add_zero, Nat.mul_div_cancel_left _ pos]

section Positions

variable {firstVa lastVa level startVa endVa base index : Nat} {dir below : PhysAddr}

theorem SubWalk.level_le (sub : SubWalk mem root firstVa lastVa level dir startVa endVa base) :
    level ≤ 3 := tableAt_le sub.table

/-- The first offset that an entry of the table spans. -/
theorem SubWalk.entry (sub : SubWalk mem root firstVa lastVa level dir startVa endVa base)
    (inRange : index ∈ walkIndices level startVa endVa) :
    base + index * entrySpan level < 2 ^ 48 ∧
      tableFor mem root level (base + index * entrySpan level) = some dir ∧
      pdx level (base + index * entrySpan level) = index ∧
      Between 3 level firstVa lastVa (base + index * entrySpan level) ∧
      curVa level startVa index = blockStart 3 firstVa + (base + index * entrySpan level) := by
  have bound := walkIndices_bound inRange
  have pos := entrySpan_pos level
  have inside : index * entrySpan level < entrySpan (level + 1) := by
    have value := index_offset_lt bound pos
    rwa [Nat.add_zero] at value
  have top := sub.inside
  obtain ⟨first, last⟩ := mem_walkIndices.mp inRange
  refine ⟨by omega, ?_, ?_, ?_, ?_⟩
  · rw [← sub.table]
    exact tableAt_route sub.level_le fun step above _ => pdx_above sub.aligned inside above
  · obtain ⟨times, isBase⟩ := sub.aligned
    rw [isBase, Nat.mul_comm, pdx_offset (Nat.le_refl level)]
    have value := pdx_of_offset bound pos
    rwa [Nat.add_zero] at value
  · apply sub.range level (Nat.le_refl _) _ inside
    rw [Between, ← pdx_mod, ← pdx_mod, Nat.mul_div_cancel _ pos]
    exact ⟨first, last⟩
  · rw [curVa_block, sub.block, Nat.add_assoc]

/-- The walk of the table that an entry names. -/
theorem SubWalk.down (sub : SubWalk mem root firstVa lastVa (level + 1) dir startVa endVa base)
    (inRange : index ∈ walkIndices (level + 1) startVa endVa)
    (names : tableOf level (mem dir index) = some below) :
    SubWalk mem root firstVa lastVa level below (belowStart (level + 1) startVa index)
      (belowEnd (level + 1) startVa endVa index) (base + index * entrySpan (level + 1)) := by
  have bound := walkIndices_bound inRange
  have levels := sub.level_le
  obtain ⟨first, last⟩ := mem_walkIndices.mp inRange
  obtain ⟨_, leads, position, _, _⟩ := sub.entry inRange
  have next := entry_end base (level + 1) bound
  rw [Nat.add_mul, Nat.one_mul] at next
  refine ⟨?_, ?_, ?_, ?_, ?_⟩
  · apply tableAt_step leads
    rw [position]
    exact names
  · exact Nat.dvd_add (Nat.dvd_trans (entrySpan_dvd (Nat.le_succ _)) sub.aligned) (Nat.dvd_mul_left _ _)
  · have top := sub.inside
    omega
  · rw [blockStart_below, sub.block, Nat.add_assoc]
  · intro low lowBound rest inside between
    rw [Nat.add_assoc]
    apply sub.range low (by omega) _ (index_offset_lt bound inside)
    exact ⟨(first_iff lowBound inside).mpr ⟨first, between.1⟩,
      (last_iff lowBound inside (by omega)).mpr ⟨last, between.2⟩⟩

/-- A lower entry of the range lies below an entry of the loop, in the part that is walked there. -/
theorem between_down {low rest : Nat} (lower : low ≤ level) (bound : level ≤ 2)
    (between : Between (level + 1) low startVa endVa rest) :
    rest / entrySpan (level + 1) ∈ walkIndices (level + 1) startVa endVa ∧
      Between level low (belowStart (level + 1) startVa (rest / entrySpan (level + 1)))
        (belowEnd (level + 1) startVa endVa (rest / entrySpan (level + 1)))
        (rest % entrySpan (level + 1)) := by
  have split := Nat.div_add_mod' rest (entrySpan (level + 1))
  have remainder := Nat.mod_lt rest (entrySpan_pos (level + 1))
  obtain ⟨first, last⟩ := between
  rw [← split, first_iff lower remainder] at first
  rw [← split, last_iff lower remainder bound] at last
  exact ⟨mem_walkIndices.mpr ⟨first.1, last.1⟩, first.2, last.2⟩

end Positions

/-! The rule. -/

theorem bigSlot_normal (level : Nat) (pte : Ptent) : bigSlot level .normal pte = bigSlot level .none pte := by
  simp [bigSlot]

theorem bigSlot_zero (level : Nat) : bigSlot level .none 0#64 = false := by
  have notBig : pteBig 0#64 = false := by decide
  simp [bigSlot, notBig]

/-- A walk calls its function for the word. -/
def visitsWord (create : Create) (low : Nat) (pte : Ptent) : Bool :=
  if low = 0 then create = .normal || pte ≠ 0 else bigSlot low create pte

/-- The level of the entries that a walk with creation makes. -/
def targetLevel : Create → Nat
  | .none => 0
  | .normal => 0
  | .big => 1
  | .big1gb => 2

/-- What a part of a walk of a table of `level` comes to: the pool is lost, or the state is kept,
what is done stays so, and if the walk goes on then the offsets that the part covers are done. -/
def StepKeeps (lost : PagePool → Prop) (kept : Vm → Prop) (done : Nat → Vm → Prop) (root : PhysAddr)
    (level : Nat) (vm : Vm) (outcome : Option Int × Vm) (covered : Nat → Prop) : Prop :=
  lost outcome.2.pool ∨ kept outcome.2 ∧ PointersFrom root level vm.mem outcome.2.mem ∧
    (∀ offset, done offset vm → done offset outcome.2) ∧
    (outcome.1 = some 0 → ∀ offset, covered offset → done offset outcome.2)

/-- What a walk over a range needs of its callback and of new tables. -/
structure RangeRule (lost : PagePool → Prop) (kept : Vm → Prop) (done : Nat → Vm → Prop)
    (root : PhysAddr) (firstVa lastVa : Nat) (cb : PageWalkCb) (create : Create) : Prop where
  cbLost : ∀ slot va vm, lost vm.pool → lost (cb slot va vm).2.pool
  allocLost : create = .none ∨ ∀ vm, lost vm.pool → lost (allocPage vm).2.pool
  visit : ∀ vm low dir offset, kept vm → offset < 2 ^ 48 → tableFor vm.mem root low offset = some dir →
    Between 3 low firstVa lastVa offset → entrySpan low ∣ offset → targetLevel create ≤ low →
    visitsWord create low (vm.mem dir (pdx low offset)) = true →
    StepKeeps lost kept done root low vm
      (cb ⟨dir, pdx low offset⟩ (blockStart 3 firstVa + offset) vm)
      fun other => other / entrySpan low = offset / entrySpan low
  refused : create = .none ∨ ∀ vm, kept vm → (∀ page, (allocPage vm).1 ≠ some (some page)) →
    ∀ result, StepKeeps lost kept done root 0 vm (result, (allocPage vm).2) fun _ => False
  install : create = .none ∨ ∀ vm low dir offset page next, kept vm → offset < 2 ^ 48 →
    tableFor vm.mem root (low + 1) offset = some dir → Between 3 (low + 1) firstVa lastVa offset →
    bigSlot (low + 1) create (vm.mem dir (pdx (low + 1) offset)) = false →
    ptePresent (vm.mem dir (pdx (low + 1) offset)) = false →
    allocPage vm = (some (some page), next) →
    StepKeeps lost kept done root 0 vm
      (some 0, installTable next ⟨dir, pdx (low + 1) offset⟩ page) fun _ => False

variable {lost : PagePool → Prop} {kept : Vm → Prop} {done : Nat → Vm → Prop}
variable {firstVa lastVa : Nat} {cb : PageWalkCb} {create : Create}

theorem StepKeeps.refl {level : Nat} {vm : Vm} {result : Option Int} (holds : kept vm) :
    StepKeeps lost kept done root level vm (result, vm) fun _ => False :=
  Or.inr ⟨holds, PointersFrom.refl level, fun _ isDone => isDone, fun _ _ nothing => nothing.elim⟩

theorem StepKeeps.weaken {level lower : Nat} {vm : Vm} {outcome : Option Int × Vm}
    {covered fewer : Nat → Prop} (step : StepKeeps lost kept done root lower vm outcome covered)
    (above : lower ≤ level) (covers : outcome.1 = some 0 → ∀ offset, fewer offset → covered offset) :
    StepKeeps lost kept done root level vm outcome fewer := by
  rcases step with gone | ⟨holds, pointers, stays, reaches⟩
  · exact Or.inl gone
  · exact Or.inr ⟨holds, pointers.mono above, stays, fun zero offset fewer =>
      reaches zero offset (covers zero offset fewer)⟩

/-- One part after another. -/
theorem StepKeeps.trans {level : Nat} {vm middle : Vm} {result : Option Int} {outcome : Option Int × Vm}
    {covered more : Nat → Prop} (first : StepKeeps lost kept done root level vm (result, middle) covered)
    (zero : result = some 0)
    (stays : lost middle.pool → lost outcome.2.pool)
    (second : kept middle → PointersFrom root level vm.mem middle.mem →
      StepKeeps lost kept done root level middle outcome more) :
    StepKeeps lost kept done root level vm outcome fun offset => covered offset ∨ more offset := by
  rcases first with gone | ⟨holds, pointers, keeps, reaches⟩
  · exact Or.inl (stays gone)
  · rcases second holds pointers with gone | ⟨later, morePointers, keepsMore, reachesMore⟩
    · exact Or.inl gone
    · refine Or.inr ⟨later, pointers.trans morePointers, fun offset isDone =>
        keepsMore offset (keeps offset isDone), fun final offset either => ?_⟩
      rcases either with early | late
      · exact keepsMore offset (reaches zero offset early)
      · exact reachesMore final offset late

theorem walkLoop_range {body : Nat → Vm → Option Int × Vm} {level : Nat} (ready : Vm → Prop)
    (covered : Nat → Nat → Prop)
    (bodyLost : ∀ index vm, lost vm.pool → lost (body index vm).2.pool)
    (readyKept : ∀ vm next : Vm, ready vm → PointersFrom root level vm.mem next.mem → ready next)
    (indices : List Nat)
    (each : ∀ index ∈ indices, ∀ vm, kept vm → ready vm →
      StepKeeps lost kept done root level vm (body index vm) (covered index))
    (vm : Vm) (holds : kept vm) (isReady : ready vm) :
    StepKeeps lost kept done root level vm (walkLoop body indices vm)
      fun offset => ∃ index ∈ indices, covered index offset := by
  induction indices generalizing vm with
  | nil => exact (StepKeeps.refl holds).weaken (Nat.le_refl _) (by simp)
  | cons index rest ih =>
      have first := each index (by simp) vm holds isReady
      simp only [walkLoop]
      split
      · rename_i next stepped
        rw [stepped] at first
        have both := first.trans rfl (walkLoop_lost bodyLost rest next) fun later pointers =>
          ih (fun index inRest => each index (by simp [inRest])) next later
            (readyKept vm next isReady pointers)
        refine both.weaken (Nat.le_refl _) fun _ offset some_ => ?_
        obtain ⟨position, member, covers⟩ := some_
        rcases List.mem_cons.mp member with rfl | inRest
        · exact Or.inl covers
        · exact Or.inr ⟨position, inRest, covers⟩
      · rename_i notZero
        refine first.weaken (Nat.le_refl _) fun zero => ?_
        exact (notZero _ (Prod.ext zero rfl)).elim

theorem bigSlot_target {level : Nat} (isTarget : targetLevel create = level + 1) (pte : Ptent) :
    bigSlot (level + 1) create pte = true := by
  cases create with
  | none => simp [targetLevel] at isTarget
  | normal => simp [targetLevel] at isTarget
  | big =>
      obtain rfl : level = 0 := by simpa [targetLevel] using isTarget.symm
      simp [bigSlot]
  | big1gb =>
      obtain rfl : level = 1 := by simpa [targetLevel] using isTarget.symm
      simp [bigSlot]

theorem SubWalk.moved {level startVa endVa base : Nat} {dir : PhysAddr}
    (sub : SubWalk mem root firstVa lastVa level dir startVa endVa base)
    (pointers : PointersFrom root level mem next) :
    SubWalk next root firstVa lastVa level dir startVa endVa base :=
  { sub with table := pointers.tableFor (Nat.le_refl _) sub.table }

section Rule

variable (rule : RangeRule lost kept done root firstVa lastVa cb create)
variable {level startVa endVa base index : Nat} {dir : PhysAddr} {vm : Vm}

include rule

theorem RangeRule.lost_walk (level : Nat) (dir : PhysAddr) (startVa endVa : Nat) (vm : Vm)
    (already : lost vm.pool) : lost (pageWalk cb create level dir startVa endVa vm).2.pool :=
  pageWalk_lost rule.cbLost rule.allocLost level dir startVa endVa vm already

/-- The callback at an entry of the table. -/
theorem RangeRule.entry (holds : kept vm) (above : targetLevel create ≤ level)
    (sub : SubWalk vm.mem root firstVa lastVa level dir startVa endVa base)
    (inRange : index ∈ walkIndices level startVa endVa)
    (visited : visitsWord create level (vm.mem dir index) = true) :
    StepKeeps lost kept done root level vm (cb ⟨dir, index⟩ (curVa level startVa index) vm)
      fun offset => offset / entrySpan level = (base + index * entrySpan level) / entrySpan level := by
  obtain ⟨inside, leads, position, between, address⟩ := sub.entry inRange
  have aligned : entrySpan level ∣ base + index * entrySpan level :=
    Nat.dvd_add (Nat.dvd_trans (entrySpan_dvd (Nat.le_succ _)) sub.aligned) (Nat.dvd_mul_left _ _)
  have step := rule.visit vm level dir _ holds inside leads between aligned above (position.symm ▸ visited)
  rw [position] at step
  rw [address]
  exact step

/-- One turn of the loop at a table of level 0. -/
theorem RangeRule.walkLeaf (holds : kept vm) (above : targetLevel create ≤ 0)
    (sub : SubWalk vm.mem root firstVa lastVa 0 dir startVa endVa base)
    (inRange : index ∈ walkIndices 0 startVa endVa) :
    StepKeeps lost kept done root 0 vm (RdmaPaging.walkLeaf cb create dir startVa index vm)
      fun offset => create = .normal ∧
        offset / entrySpan 0 = (base + index * entrySpan 0) / entrySpan 0 := by
  unfold RdmaPaging.walkLeaf
  split
  · rename_i visited
    have step := rule.entry holds above sub inRange (by simpa [visitsWord] using visited)
    exact step.weaken (Nat.le_refl _) fun _ offset covered => covered.2
  · rename_i skipped
    refine (StepKeeps.refl holds).weaken (Nat.le_refl _) fun _ offset covered => ?_
    exact skipped (Or.inl covered.1)

/-- The offsets that a walk of a table covers if it comes to its end. -/
def Covered (create : Create) (level startVa endVa base offset : Nat) : Prop :=
  create ≠ .none ∧ base ≤ offset ∧ offset < base + entrySpan (level + 1) ∧
    Between level 0 startVa endVa (offset - base)

omit rule in
theorem same_entry {offset : Nat} (aligned : entrySpan level ∣ base) (low : base ≤ offset)
    (high : offset < base + entrySpan level) : offset / entrySpan level = base / entrySpan level := by
  obtain ⟨times, rfl⟩ := aligned
  have pos := entrySpan_pos level
  rw [Nat.mul_div_cancel_left _ pos]
  apply Nat.div_eq_of_lt_le
  · rwa [Nat.mul_comm]
  · rw [Nat.add_mul, Nat.one_mul, Nat.mul_comm]
    exact high

/-- One turn of the loop at a table of a higher level. -/
theorem RangeRule.walkEntry
    (below : ∀ dir startVa endVa base vm, kept vm → targetLevel create ≤ level →
      SubWalk vm.mem root firstVa lastVa level dir startVa endVa base →
      StepKeeps lost kept done root level vm (pageWalk cb create level dir startVa endVa vm)
        (Covered create level startVa endVa base))
    (holds : kept vm) (above : targetLevel create ≤ level + 1)
    (sub : SubWalk vm.mem root firstVa lastVa (level + 1) dir startVa endVa base)
    (inRange : index ∈ walkIndices (level + 1) startVa endVa) :
    StepKeeps lost kept done root (level + 1) vm
      (RdmaPaging.walkEntry cb create (level + 1) (pageWalk cb create level) dir startVa endVa index vm)
      fun offset => (base + index * entrySpan (level + 1) ≤ offset ∧
          offset < base + index * entrySpan (level + 1) + entrySpan (level + 1)) ∧ create ≠ .none ∧
        Between level 0 (belowStart (level + 1) startVa index) (belowEnd (level + 1) startVa endVa index)
          (offset - (base + index * entrySpan (level + 1))) := by
  have aligned : entrySpan (level + 1) ∣ base + index * entrySpan (level + 1) :=
    Nat.dvd_add (Nat.dvd_trans (entrySpan_dvd (Nat.le_succ _)) sub.aligned) (Nat.dvd_mul_left _ _)
  unfold RdmaPaging.walkEntry
  dsimp only
  by_cases big : bigSlot (level + 1) create (vm.mem dir index) = true
  · rw [if_pos big]
    have step := rule.entry holds above sub inRange (by simpa [visitsWord] using big)
    exact step.weaken (Nat.le_refl _) fun _ offset covered =>
      same_entry aligned covered.1.1 covered.1.2
  · rw [if_neg big]
    have small : bigSlot (level + 1) create (vm.mem dir index) = false := by simpa using big
    have further : targetLevel create ≤ level := by
      have notHere : targetLevel create ≠ level + 1 := fun isTarget =>
        big (bigSlot_target isTarget _)
      omega
    split
    · rename_i present
      have down := below _ _ _ _ vm holds further (sub.down inRange (tableOf_present small present))
      exact down.weaken (Nat.le_succ _) fun _ offset covered =>
        ⟨covered.2.1, covered.1.1, covered.1.2, covered.2.2⟩
    · rename_i absent
      have isAbsent : ptePresent (vm.mem dir index) = false := by simpa using absent
      split
      · rename_i isNone
        exact (StepKeeps.refl holds).weaken (Nat.le_refl _) fun _ offset covered =>
          covered.2.1 isNone
      · rename_i creates
        have refused := rule.refused.resolve_left creates vm holds
        split
        · rename_i page next allocated
          obtain ⟨inside, leads, position, between, _⟩ := sub.entry inRange
          have installs := rule.install.resolve_left creates vm level dir _ page next holds inside leads
            between (position.symm ▸ small) (position.symm ▸ isAbsent) allocated
          rw [position] at installs
          have lifted := installs.weaken (Nat.zero_le (level + 1)) fun _ _ nothing => nothing
          have both := lifted.trans rfl (rule.lost_walk level _ _ _ _) fun later pointers =>
            (below (pteAddr ((installTable next ⟨dir, index⟩ page).mem dir index)) _ _ _ _ later
              further ((sub.moved pointers).down inRange (by
                simp [installTable_mem, installed, setWord]))).weaken (Nat.le_succ level)
                fun _ offset covered => covered
          exact both.weaken (Nat.le_refl _) fun _ offset covered =>
            Or.inr ⟨covered.2.1, covered.1.1, covered.1.2, covered.2.2⟩
        · rename_i next refusal
          rw [refusal] at refused
          exact (refused (by simp) _).weaken (Nat.zero_le _) fun zero => absurd zero (by simp [enomem])
        · rename_i next died
          rw [died] at refused
          exact (refused (by simp) _).weaken (Nat.zero_le _) fun zero => absurd zero (by simp)

/-- The rule of walks over a range. -/
theorem RangeRule.pageWalk (level : Nat) (dir : PhysAddr) (startVa endVa base : Nat) (vm : Vm)
    (holds : kept vm) (above : targetLevel create ≤ level)
    (sub : SubWalk vm.mem root firstVa lastVa level dir startVa endVa base) :
    StepKeeps lost kept done root level vm (RdmaPaging.pageWalk cb create level dir startVa endVa vm)
      (Covered create level startVa endVa base) := by
  induction level generalizing dir startVa endVa base vm with
  | zero =>
      have loop := walkLoop_range
        (fun vm => SubWalk vm.mem root firstVa lastVa 0 dir startVa endVa base)
        (fun index offset => create = .normal ∧
          offset / entrySpan 0 = (base + index * entrySpan 0) / entrySpan 0)
        (fun index vm already => by
          unfold RdmaPaging.walkLeaf
          split
          · exact rule.cbLost _ _ vm already
          · exact already)
        (fun _ _ sub pointers => sub.moved pointers) (walkIndices 0 startVa endVa)
        (fun index inRange vm holds sub => rule.walkLeaf holds above sub inRange) vm holds sub
      refine loop.weaken (Nat.le_refl _) fun _ offset covered => ?_
      obtain ⟨creates, low, high, between⟩ := covered
      rw [Between, ← pdx_mod, ← pdx_mod] at between
      have isNormal : create = .normal := by
        cases create with
        | none => exact absurd rfl creates
        | normal => rfl
        | big => simp [targetLevel] at above
        | big1gb => simp [targetLevel] at above
      refine ⟨(offset - base) / entrySpan 0, mem_walkIndices.mpr between, isNormal, ?_⟩
      have pos := entrySpan_pos 0
      obtain ⟨times, isBase⟩ := Nat.dvd_trans (entrySpan_dvd (Nat.zero_le 1)) sub.aligned
      have split : offset = entrySpan 0 * times + (offset - base) := by omega
      rw [split, isBase, Nat.mul_add_div pos, Nat.mul_add_div pos, Nat.mul_div_cancel _ pos,
        Nat.add_sub_cancel_left]
  | succ level ih =>
      have levels := sub.level_le
      have loop := walkLoop_range
        (fun vm => SubWalk vm.mem root firstVa lastVa (level + 1) dir startVa endVa base)
        (fun index offset => (base + index * entrySpan (level + 1) ≤ offset ∧
            offset < base + index * entrySpan (level + 1) + entrySpan (level + 1)) ∧ create ≠ .none ∧
          Between level 0 (belowStart (level + 1) startVa index)
            (belowEnd (level + 1) startVa endVa index) (offset - (base + index * entrySpan (level + 1))))
        (fun index vm already => walkEntry_lost rule.cbLost rule.allocLost (rule.lost_walk level)
          _ _ _ _ _ vm already)
        (fun _ _ sub pointers => sub.moved pointers) (walkIndices (level + 1) startVa endVa)
        (fun index inRange vm holds sub => rule.walkEntry ih holds above sub inRange) vm holds sub
      refine loop.weaken (Nat.le_refl _) fun _ offset covered => ?_
      obtain ⟨creates, low, high, between⟩ := covered
      have split := Nat.div_add_mod' (offset - base) (entrySpan (level + 1))
      have remainder := Nat.mod_lt (offset - base) (entrySpan_pos (level + 1))
      obtain ⟨inRange, deeper⟩ := between_down (Nat.zero_le _) (by omega) between
      have rest : offset - (base + (offset - base) / entrySpan (level + 1) * entrySpan (level + 1)) =
          (offset - base) % entrySpan (level + 1) := by omega
      refine ⟨_, inRange, ⟨by omega, by omega⟩, creates, ?_⟩
      rw [rest]
      exact deeper

end Rule

end RdmaPaging
