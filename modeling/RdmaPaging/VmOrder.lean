import RdmaPaging.VmRange

/-!
A walk goes through its range in the order of addresses. `kept position` is what holds of the
state when all entries below the position are done, and the rule carries it to the end of the
walk.
-/

namespace RdmaPaging

open RadixTree

variable {mem next : PhysAddr → Nat → Ptent} {root : PhysAddr}

/-- A part of a walk of a table of `level`: if the walk goes on, then the pool is lost or the
walk has come to the position `goal`. -/
def Advances (lost : PagePool → Prop) (kept : Nat → Vm → Prop) (root : PhysAddr) (level : Nat) (vm : Vm)
    (outcome : Option Int × Vm) (goal : Nat) : Prop :=
  outcome.1 = some 0 → lost outcome.2.pool ∨
    PointersFrom root level vm.mem outcome.2.mem ∧ kept goal outcome.2

/-- A stretch of what a table spans, from one of its entries on, without an entry of the range. -/
structure RangeGap (mem : PhysAddr → Nat → Ptent) (root : PhysAddr) (firstVa lastVa level : Nat)
    (dir : PhysAddr) (base here there : Nat) : Prop where
  table : tableFor mem root level base = some dir
  aligned : entrySpan (level + 1) ∣ base
  inside : base + entrySpan (level + 1) ≤ 2 ^ 48
  above : base ≤ here
  entry : entrySpan level ∣ here
  order : here ≤ there
  below : there ≤ base + entrySpan (level + 1)
  empty : ∀ low ≤ level, ∀ offset, here ≤ offset → offset < there → ¬ Between 3 low firstVa lastVa offset

/-- What a walk in order needs of its callback, of entries without a table, and of new tables. -/
structure OrderRule (lost : PagePool → Prop) (kept : Nat → Vm → Prop) (root : PhysAddr)
    (firstVa lastVa : Nat) (cb : PageWalkCb) (create : Create) : Prop where
  plain : create = .none ∨ create = .normal
  cbLost : ∀ slot va vm, lost vm.pool → lost (cb slot va vm).2.pool
  allocLost : create = .none ∨ ∀ vm, lost vm.pool → lost (allocPage vm).2.pool
  jump : ∀ vm level dir base here there, kept here vm →
    RangeGap vm.mem root firstVa lastVa level dir base here there → kept there vm
  visit : ∀ vm low dir offset, kept offset vm → offset < 2 ^ 48 → tableFor vm.mem root low offset = some dir →
    Between 3 low firstVa lastVa offset → entrySpan low ∣ offset →
    visitsWord create low (vm.mem dir (pdx low offset)) = true →
    Advances lost kept root low vm (cb ⟨dir, pdx low offset⟩ (blockStart 3 firstVa + offset) vm)
      (offset + entrySpan low)
  skip : create = .none → ∀ vm low dir offset, kept offset vm → offset < 2 ^ 48 →
    tableFor vm.mem root low offset = some dir → Between 3 low firstVa lastVa offset →
    entrySpan low ∣ offset → visitsWord .none low (vm.mem dir (pdx low offset)) = false →
    (∀ lower, low = lower + 1 → tableOf lower (vm.mem dir (pdx low offset)) = none) →
    kept (offset + entrySpan low) vm
  install : create = .none ∨ ∀ vm low dir offset page next, kept offset vm → offset < 2 ^ 48 →
    tableFor vm.mem root (low + 1) offset = some dir → Between 3 (low + 1) firstVa lastVa offset →
    entrySpan (low + 1) ∣ offset → bigSlot (low + 1) .none (vm.mem dir (pdx (low + 1) offset)) = false →
    ptePresent (vm.mem dir (pdx (low + 1) offset)) = false → allocPage vm = (some (some page), next) →
    Advances lost kept root 0 vm (some 0, installTable next ⟨dir, pdx (low + 1) offset⟩ page) offset

/-- A part of a walk that covers the entries in its table that lie in the range. -/
structure OrderedWalk (mem : PhysAddr → Nat → Ptent) (root : PhysAddr) (firstVa lastVa level : Nat)
    (dir : PhysAddr) (startVa endVa base : Nat) : Prop
    extends SubWalk mem root firstVa lastVa level dir startVa endVa base where
  covers : ∀ low ≤ level, ∀ rest < entrySpan (level + 1),
    Between 3 low firstVa lastVa (base + rest) → Between level low startVa endVa rest

variable {lost : PagePool → Prop} {kept : Nat → Vm → Prop} {firstVa lastVa : Nat} {cb : PageWalkCb}
variable {create : Create} {level startVa endVa base index : Nat} {dir below : PhysAddr} {vm : Vm}

theorem orderedWalk_top (mem : PhysAddr → Nat → Ptent) (root : PhysAddr) (firstVa lastVa : Nat) :
    OrderedWalk mem root firstVa lastVa 3 root firstVa lastVa 0 where
  toSubWalk := subWalk_top mem root firstVa lastVa
  covers := by
    intro low _ rest _ between
    rwa [Nat.zero_add] at between

theorem OrderedWalk.moved (sub : OrderedWalk mem root firstVa lastVa level dir startVa endVa base)
    (pointers : PointersFrom root level mem next) :
    OrderedWalk next root firstVa lastVa level dir startVa endVa base :=
  ⟨sub.toSubWalk.moved pointers, sub.covers⟩

theorem OrderedWalk.down (sub : OrderedWalk mem root firstVa lastVa (level + 1) dir startVa endVa base)
    (inRange : index ∈ walkIndices (level + 1) startVa endVa)
    (names : tableOf level (mem dir index) = some below) :
    OrderedWalk mem root firstVa lastVa level below (belowStart (level + 1) startVa index)
      (belowEnd (level + 1) startVa endVa index) (base + index * entrySpan (level + 1)) where
  toSubWalk := sub.toSubWalk.down inRange names
  covers := by
    intro low lower rest inside between
    have levels := sub.level_le
    have pos := entrySpan_pos (level + 1)
    rw [Nat.add_assoc] at between
    have deeper := (between_down lower (by omega)
      (sub.covers low (by omega) _ (index_offset_lt (walkIndices_bound inRange) inside) between)).2
    rw [Nat.mul_comm, Nat.mul_add_div pos, Nat.div_eq_of_lt inside, Nat.add_zero, Nat.mul_add_mod,
      Nat.mod_eq_of_lt inside] at deeper
    exact deeper

/-- An entry of the range lies below one of the loop, or is one. -/
theorem OrderedWalk.entry_of (sub : OrderedWalk mem root firstVa lastVa level dir startVa endVa base)
    {low rest : Nat} (lower : low ≤ level) (inside : rest < entrySpan (level + 1))
    (member : Between 3 low firstVa lastVa (base + rest)) :
    rest / entrySpan level ∈ walkIndices level startVa endVa := by
  have between := sub.covers low lower rest inside member
  have levels := sub.level_le
  by_cases same : low = level
  · subst same
    rw [Between, ← pdx_mod, ← pdx_mod] at between
    exact mem_walkIndices.mpr between
  · obtain ⟨below, rfl⟩ : ∃ below, level = below + 1 := ⟨level - 1, by omega⟩
    exact (between_down (by omega) (by omega) between).1

/-- The offset after an entry. -/
theorem entry_after (base index level : Nat) : base + (index + 1) * entrySpan level =
    base + index * entrySpan level + entrySpan level := by
  rw [Nat.add_mul, Nat.one_mul, Nat.add_assoc]

/-- One part after another. -/
theorem Advances.trans {middle : Vm} {outcome : Option Int × Vm} {mid goal : Nat}
    (first : Advances lost kept root level vm (some 0, middle) mid)
    (stays : lost middle.pool → lost outcome.2.pool)
    (second : kept mid middle → PointersFrom root level vm.mem middle.mem →
      Advances lost kept root level middle outcome goal) : Advances lost kept root level vm outcome goal := by
  intro zero
  rcases first rfl with gone | ⟨pointers, holds⟩
  · exact Or.inl (stays gone)
  · rcases second holds pointers zero with gone | ⟨more, there⟩
    · exact Or.inl gone
    · exact Or.inr ⟨pointers.trans more, there⟩

theorem Advances.raise {lower goal : Nat} {outcome : Option Int × Vm}
    (part : Advances lost kept root lower vm outcome goal) (above : lower ≤ level) :
    Advances lost kept root level vm outcome goal := by
  intro zero
  exact (part zero).imp_right fun holds => ⟨holds.1.mono above, holds.2⟩

theorem Advances.refl {goal : Nat} {result : Option Int} (holds : kept goal vm) :
    Advances lost kept root level vm (result, vm) goal :=
  fun _ => Or.inr ⟨PointersFrom.refl level, holds⟩

theorem walkLoop_advances {body : Nat → Vm → Option Int × Vm} (position : Nat → Nat) (ready : Vm → Prop)
    (bodyLost : ∀ index vm, lost vm.pool → lost (body index vm).2.pool)
    (readyKept : ∀ vm next : Vm, ready vm → PointersFrom root level vm.mem next.mem → ready next)
    (start count : Nat)
    (each : ∀ index ∈ List.range' start count, ∀ vm, kept (position index) vm → ready vm →
      Advances lost kept root level vm (body index vm) (position (index + 1)))
    (vm : Vm) (holds : kept (position start) vm) (isReady : ready vm) :
    Advances lost kept root level vm (walkLoop body (List.range' start count) vm)
      (position (start + count)) := by
  induction count generalizing start vm with
  | zero => exact .refl holds
  | succ count ih =>
      have first := each start (by simp) vm holds isReady
      rw [List.range'_succ, walkLoop]
      split
      · rename_i next stepped
        rw [stepped] at first
        refine first.trans (walkLoop_lost bodyLost _ next) fun later pointers => ?_
        have rest := ih (start + 1)
          (fun index inRest => each index (by rw [List.range'_succ]; exact List.mem_cons_of_mem _ inRest))
          next later (readyKept vm next isReady pointers)
        rwa [Nat.add_assoc, Nat.add_comm 1] at rest
      · rename_i notZero
        intro zero
        exact (notZero _ (Prod.ext zero rfl)).elim

section Rule

variable (rule : OrderRule lost kept root firstVa lastVa cb create)

include rule

theorem OrderRule.lost_walk (level : Nat) (dir : PhysAddr) (startVa endVa : Nat) (vm : Vm)
    (already : lost vm.pool) : lost (pageWalk cb create level dir startVa endVa vm).2.pool :=
  pageWalk_lost rule.cbLost rule.allocLost level dir startVa endVa vm already

/-- The loop over the entries of a table, from the first offset that it spans to the last. -/
theorem OrderRule.loop {body : Nat → Vm → Option Int × Vm}
    (bodyLost : ∀ index vm, lost vm.pool → lost (body index vm).2.pool)
    (each : ∀ index ∈ walkIndices level startVa endVa, ∀ vm,
      kept (base + index * entrySpan level) vm →
      OrderedWalk vm.mem root firstVa lastVa level dir startVa endVa base →
      Advances lost kept root level vm (body index vm) (base + (index + 1) * entrySpan level))
    (holds : kept base vm) (sub : OrderedWalk vm.mem root firstVa lastVa level dir startVa endVa base) :
    Advances lost kept root level vm (walkLoop body (walkIndices level startVa endVa) vm)
      (base + entrySpan (level + 1)) := by
  have pos := entrySpan_pos level
  have top := sub.inside
  have whole : nptentries * entrySpan level = entrySpan (level + 1) := by rw [entrySpan_succ]
  have start := Nat.mul_le_mul_right (entrySpan level) (Nat.le_of_lt (pdx_bound level startVa))
  -- no entry of the range lies below the first entry of the loop or above the last
  have missed : ∀ low ≤ level, ∀ offset, base ≤ offset → offset < base + entrySpan (level + 1) →
      (offset - base) / entrySpan level ∉ walkIndices level startVa endVa →
      ¬ Between 3 low firstVa lastVa offset := by
    intro low lower offset above below outside member
    have split : base + (offset - base) = offset := by omega
    exact outside (sub.entry_of lower (by omega) (by rw [split]; exact member))
  have isEntry : ∀ index, entrySpan level ∣ base + index * entrySpan level := fun index =>
    Nat.dvd_add (Nat.dvd_trans (entrySpan_dvd (Nat.le_succ level)) sub.aligned) (Nat.dvd_mul_left _ _)
  have begun : kept (base + pdx level startVa * entrySpan level) vm := by
    refine rule.jump vm level dir base base _ holds ⟨sub.table, sub.aligned, top, Nat.le_refl _,
      by simpa using isEntry 0, by omega, by omega, fun low lower offset above below => ?_⟩
    refine missed low lower offset above (by omega) fun inLoop => ?_
    have early := (mem_walkIndices.mp inLoop).1
    have late : (offset - base) / entrySpan level < pdx level startVa := by
      rw [Nat.div_lt_iff_lt_mul pos]
      omega
    omega
  have loop := walkLoop_advances (fun index => base + index * entrySpan level)
    (fun vm => OrderedWalk vm.mem root firstVa lastVa level dir startVa endVa base) bodyLost
    (fun _ _ sub pointers => sub.moved pointers) _ _ each vm begun sub
  intro zero
  refine (loop zero).imp_right fun there => ⟨there.1, ?_⟩
  have last : pdx level startVa + (pdx level endVa + 1 - pdx level startVa) ≤ nptentries := by
    have startBound := pdx_bound level startVa
    have endBound := pdx_bound level endVa
    omega
  have reach := Nat.mul_le_mul_right (entrySpan level) last
  have after := sub.moved there.1
  refine rule.jump _ level dir base _ _ there.2 ⟨after.table, after.aligned, top, by omega, isEntry _,
    by omega, Nat.le_refl _, fun low lower offset above below => ?_⟩
  refine missed low lower offset (by omega) below fun inLoop => ?_
  have high := mem_walkIndices.mp inLoop
  have late : pdx level startVa + (pdx level endVa + 1 - pdx level startVa) ≤
      (offset - base) / entrySpan level := by
    rw [Nat.le_div_iff_mul_le pos]
    omega
  omega

/-- The callback at an entry of the table. -/
theorem OrderRule.entry (holds : kept (base + index * entrySpan level) vm)
    (sub : OrderedWalk vm.mem root firstVa lastVa level dir startVa endVa base)
    (inRange : index ∈ walkIndices level startVa endVa)
    (visited : visitsWord create level (vm.mem dir index) = true) :
    Advances lost kept root level vm (cb ⟨dir, index⟩ (curVa level startVa index) vm)
      (base + (index + 1) * entrySpan level) := by
  obtain ⟨inside, leads, position, between, address⟩ := sub.entry inRange
  have aligned : entrySpan level ∣ base + index * entrySpan level :=
    Nat.dvd_add (Nat.dvd_trans (entrySpan_dvd (Nat.le_succ _)) sub.aligned) (Nat.dvd_mul_left _ _)
  have step := rule.visit vm level dir _ holds inside leads between aligned (position.symm ▸ visited)
  rw [position] at step
  rw [address, entry_after]
  exact step

/-- An entry that a walk without creation passes over. -/
theorem OrderRule.pass (isNone : create = .none) (holds : kept (base + index * entrySpan level) vm)
    (sub : OrderedWalk vm.mem root firstVa lastVa level dir startVa endVa base)
    (inRange : index ∈ walkIndices level startVa endVa)
    (passed : visitsWord .none level (vm.mem dir index) = false)
    (none : ∀ lower, level = lower + 1 → tableOf lower (vm.mem dir index) = Option.none) :
    kept (base + (index + 1) * entrySpan level) vm := by
  obtain ⟨inside, leads, position, between, _⟩ := sub.entry inRange
  have aligned : entrySpan level ∣ base + index * entrySpan level :=
    Nat.dvd_add (Nat.dvd_trans (entrySpan_dvd (Nat.le_succ _)) sub.aligned) (Nat.dvd_mul_left _ _)
  have step := rule.skip isNone vm level dir _ holds inside leads between aligned
    (position.symm ▸ passed) (position.symm ▸ none)
  rw [entry_after]
  exact step

/-- One turn of the loop at a table of level 0. -/
theorem OrderRule.walkLeaf (holds : kept (base + index * entrySpan 0) vm)
    (sub : OrderedWalk vm.mem root firstVa lastVa 0 dir startVa endVa base)
    (inRange : index ∈ walkIndices 0 startVa endVa) :
    Advances lost kept root 0 vm (RdmaPaging.walkLeaf cb create dir startVa index vm)
      (base + (index + 1) * entrySpan 0) := by
  unfold RdmaPaging.walkLeaf
  split
  · rename_i visited
    exact rule.entry holds sub inRange (by simpa [visitsWord] using visited)
  · rename_i passed
    rw [not_or, not_ne_iff] at passed
    have isNone := rule.plain.resolve_right passed.1
    exact .refl (rule.pass isNone holds sub inRange (by simp [visitsWord, passed.2]) (by simp))

/-- One turn of the loop at a table of a higher level. -/
theorem OrderRule.walkEntry
    (below : ∀ dir startVa endVa base vm, kept base vm →
      OrderedWalk vm.mem root firstVa lastVa level dir startVa endVa base →
      Advances lost kept root level vm (pageWalk cb create level dir startVa endVa vm)
        (base + entrySpan (level + 1)))
    (holds : kept (base + index * entrySpan (level + 1)) vm)
    (sub : OrderedWalk vm.mem root firstVa lastVa (level + 1) dir startVa endVa base)
    (inRange : index ∈ walkIndices (level + 1) startVa endVa) :
    Advances lost kept root (level + 1) vm
      (RdmaPaging.walkEntry cb create (level + 1) (pageWalk cb create level) dir startVa endVa index vm)
      (base + (index + 1) * entrySpan (level + 1)) := by
  have sameSlot : bigSlot (level + 1) create (vm.mem dir index) =
      bigSlot (level + 1) .none (vm.mem dir index) := by
    rcases rule.plain with rfl | rfl
    · rfl
    · exact bigSlot_normal ..
  unfold RdmaPaging.walkEntry
  dsimp only
  by_cases big : bigSlot (level + 1) create (vm.mem dir index) = true
  · rw [if_pos big]
    exact rule.entry holds sub inRange (by simpa [visitsWord] using big)
  · rw [if_neg big]
    have small : bigSlot (level + 1) .none (vm.mem dir index) = false := by
      rw [← sameSlot]
      simpa using big
    split
    · rename_i present
      rw [entry_after]
      exact (below _ _ _ _ vm holds (sub.down inRange (tableOf_present small present))).raise
        (Nat.le_succ _)
    · rename_i absent
      have isAbsent : ptePresent (vm.mem dir index) = false := by simpa using absent
      split
      · rename_i isNone
        exact .refl (rule.pass isNone holds sub inRange (by simpa [visitsWord] using small)
          fun lower isLower => by
            obtain rfl : lower = level := by omega
            simp [tableOf, isAbsent])
      · rename_i creates
        split
        · rename_i page next allocated
          obtain ⟨inside, leads, position, between, _⟩ := sub.entry inRange
          have aligned : entrySpan (level + 1) ∣ base + index * entrySpan (level + 1) :=
            Nat.dvd_add (Nat.dvd_trans (entrySpan_dvd (Nat.le_succ _)) sub.aligned) (Nat.dvd_mul_left _ _)
          have installs := rule.install.resolve_left creates vm level dir _ page next holds inside leads
            between aligned (position.symm ▸ small) (position.symm ▸ isAbsent) allocated
          rw [position] at installs
          refine (installs.raise (Nat.zero_le (level + 1))).trans (rule.lost_walk level _ _ _ _)
            fun later pointers => ?_
          rw [entry_after]
          have names : tableOf level ((installTable next ⟨dir, index⟩ page).mem dir index) =
              some (pteAddr ((installTable next ⟨dir, index⟩ page).mem dir index)) := by
            simp [installTable_mem, installed, setWord]
          exact (below _ _ _ _ _ later ((sub.moved pointers).down inRange names)).raise (Nat.le_succ _)
        · intro zero
          exact absurd zero (by simp [enomem])
        · intro zero
          exact absurd zero (by simp)

/-- The rule of walks in order. -/
theorem OrderRule.pageWalk (level : Nat) (dir : PhysAddr) (startVa endVa base : Nat) (vm : Vm)
    (holds : kept base vm) (sub : OrderedWalk vm.mem root firstVa lastVa level dir startVa endVa base) :
    Advances lost kept root level vm (RdmaPaging.pageWalk cb create level dir startVa endVa vm)
      (base + entrySpan (level + 1)) := by
  induction level generalizing dir startVa endVa base vm with
  | zero =>
      refine rule.loop (fun index vm already => ?_)
        (fun index inRange vm holds sub => rule.walkLeaf holds sub inRange) holds sub
      unfold RdmaPaging.walkLeaf
      split
      · exact rule.cbLost _ _ vm already
      · exact already
  | succ level ih =>
      exact rule.loop (fun index vm already => walkEntry_lost rule.cbLost rule.allocLost
          (rule.lost_walk level) _ _ _ _ _ vm already)
        (fun index inRange vm holds sub => rule.walkEntry ih holds sub inRange) holds sub

end Rule

end RdmaPaging
