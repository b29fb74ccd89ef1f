import RdmaPaging.VmWalk

/-!
Walks over all of the address space that a table spans. Such a walk visits every entry
once, in the order of addresses.
-/

namespace RdmaPaging

open RadixTree

/-- The bytes that an entry of a table of a level spans. -/
def entrySpan (level : Nat) : Nat := 2 ^ (pgshift + 9 * level)

theorem entrySpan_pos (level : Nat) : 0 < entrySpan level := Nat.pow_pos (by decide)

theorem entrySpan_succ (level : Nat) : entrySpan (level + 1) = nptentries * entrySpan level := by
  simp only [entrySpan, nptentries, pgshift, Nat.mul_add, Nat.mul_one, Nat.pow_add]
  omega

theorem entrySpan_dvd {low level : Nat} (above : low ≤ level) : entrySpan low ∣ entrySpan level :=
  Nat.pow_dvd_pow 2 (by omega)

theorem pdx_eq (level va : Nat) : pdx level va = va / entrySpan level % nptentries := rfl

/-- The index of an address in a table that spans the addresses from `startVa` on. -/
theorem pdx_inside {level startVa index va : Nat} (aligned : entrySpan (level + 1) ∣ startVa)
    (bound : index < nptentries) (low : startVa + index * entrySpan level ≤ va)
    (high : va < startVa + (index + 1) * entrySpan level) : pdx level va = index := by
  obtain ⟨times, rfl⟩ := aligned
  rw [entrySpan_succ, Nat.mul_right_comm] at low high
  have quotient : va / entrySpan level = nptentries * times + index := by
    apply Nat.div_eq_of_lt_le
    · rw [Nat.add_mul]
      exact low
    · rw [Nat.add_assoc, Nat.add_mul]
      exact high
  rw [pdx_eq, quotient, Nat.mul_add_mod, Nat.mod_eq_of_lt bound]

theorem pdx_last {low times : Nat} (positive : 0 < times) :
    pdx low (times * entrySpan (low + 1) - 1) = nptentries - 1 := by
  obtain ⟨before, rfl⟩ : ∃ before, times = before + 1 := ⟨times - 1, by omega⟩
  have pos := entrySpan_pos low
  have value : (before + 1) * entrySpan (low + 1) =
      before * entrySpan (low + 1) + nptentries * entrySpan low := by
    rw [Nat.add_mul, Nat.one_mul, ← entrySpan_succ]
  have nearly : nptentries * entrySpan low = (nptentries - 1) * entrySpan low + entrySpan low := by
    rw [← Nat.succ_mul]
    rfl
  rw [value]
  apply pdx_inside (Nat.dvd_mul_left (entrySpan (low + 1)) before) (by decide)
  · omega
  · rw [Nat.add_mul, Nat.one_mul]
    omega

/-- A walk from `startVa` to `endVa` that covers all that a table of a level spans. -/
structure Sweep (level startVa endVa : Nat) : Prop where
  aligned : entrySpan (level + 1) ∣ startVa
  full : ∀ low ≤ level, pdx low endVa = nptentries - 1
  canonical : startVa + entrySpan (level + 1) ≤ 2 ^ 48

variable {level startVa endVa index : Nat}

theorem Sweep.pdx_start (sweep : Sweep level startVa endVa) : pdx level startVa = 0 := by
  have pos := entrySpan_pos level
  exact pdx_inside sweep.aligned (by decide) (by omega) (by omega)

theorem Sweep.indices (sweep : Sweep level startVa endVa) :
    walkIndices level startVa endVa = List.range' 0 nptentries := by
  rw [walkIndices, sweep.pdx_start, sweep.full level (Nat.le_refl _)]
  rfl

theorem Sweep.curVa (sweep : Sweep level startVa endVa) (index : Nat) :
    curVa level startVa index = startVa + index * entrySpan level := by
  have floor := Nat.div_mul_cancel sweep.aligned
  rw [entrySpan] at floor
  rw [RdmaPaging.curVa, floor]
  rfl

theorem Sweep.entry_start (sweep : Sweep level startVa endVa) (index : Nat) :
    (if index = pdx level startVa then startVa else RdmaPaging.curVa level startVa index) =
      startVa + index * entrySpan level := by
  rw [sweep.pdx_start, sweep.curVa]
  split
  · rename_i isFirst
    rw [isFirst, Nat.zero_mul, Nat.add_zero]
  · rfl

theorem entry_end (startVa level : Nat) (bound : index < nptentries) :
    startVa + (index + 1) * entrySpan level ≤ startVa + entrySpan (level + 1) := by
  rw [entrySpan_succ]
  exact Nat.add_le_add_left (Nat.mul_le_mul_right _ bound) _

/-- The walk of the table that an entry names is again one over all it spans. -/
theorem Sweep.below (sweep : Sweep (level + 1) startVa endVa) (bound : index < nptentries) :
    Sweep level (startVa + index * entrySpan (level + 1))
      (if index = pdx (level + 1) endVa then endVa
        else (startVa + index * entrySpan (level + 1) + pdaddr (level + 1) 1 - 1) % 2 ^ 64) := by
  have within := entry_end startVa (level + 1) bound
  have canonical := sweep.canonical
  rw [Nat.add_mul, Nat.one_mul] at within
  have start : entrySpan (level + 1) ∣ startVa + index * entrySpan (level + 1) :=
    Nat.dvd_add (Nat.dvd_trans (entrySpan_dvd (Nat.le_succ _)) sweep.aligned) (Nat.dvd_mul_left _ _)
  refine ⟨start, fun low atMost => ?_, by omega⟩
  split
  · exact sweep.full low (by omega)
  · have one : pdaddr (level + 1) 1 = entrySpan (level + 1) := by
      rw [pdaddr, Nat.one_mul, entrySpan]
    have pos := entrySpan_pos (level + 1)
    rw [one, Nat.mod_eq_of_lt (by omega)]
    obtain ⟨times, covers⟩ : entrySpan (low + 1) ∣
        startVa + index * entrySpan (level + 1) + entrySpan (level + 1) :=
      Nat.dvd_trans (entrySpan_dvd (by omega)) (Nat.dvd_add start (Nat.dvd_refl _))
    rw [covers, Nat.mul_comm]
    apply pdx_last
    apply Nat.pos_of_ne_zero
    rintro rfl
    omega

theorem sweep_all : Sweep 3 vaStart vaEnd := by
  refine ⟨Nat.dvd_zero _, fun low atMost => ?_, by decide⟩
  obtain rfl | rfl | rfl | rfl : low = 0 ∨ low = 1 ∨ low = 2 ∨ low = 3 := by omega
  all_goals rfl

/-- A loop whose body moves a position on by one entry each time. -/
theorem walkLoop_moves {body : Nat → Vm → Option Int × Vm} (lost : PagePool → Prop)
    (reached : Nat → Vm → Prop)
    (bodyLost : ∀ index vm, lost vm.pool → lost (body index vm).2.pool) (count first : Nat)
    (moves : ∀ index vm, first ≤ index → index < first + count → reached index vm →
      lost (body index vm).2.pool ∨ (body index vm).1 = some 0 ∧ reached (index + 1) (body index vm).2)
    (vm : Vm) (begun : reached first vm) :
    lost (walkLoop body (List.range' first count) vm).2.pool ∨
      (walkLoop body (List.range' first count) vm).1 = some 0 ∧
        reached (first + count) (walkLoop body (List.range' first count) vm).2 := by
  induction count generalizing first vm with
  | zero => exact Or.inr ⟨rfl, begun⟩
  | succ count ih =>
      have step := moves first vm (Nat.le_refl _) (by omega) begun
      rw [List.range'_succ]
      simp only [walkLoop]
      split
      · rename_i next stepped
        rw [stepped] at step
        have order : first + (count + 1) = first + 1 + count := by omega
        rcases step with gone | ⟨_, moved⟩
        · exact Or.inl (walkLoop_lost bodyLost _ _ gone)
        · rw [order]
          exact ih (first + 1) (fun index vm low high => moves index vm (by omega) (by omega)) next moved
      · rename_i stopped notZero
        rcases step with gone | ⟨zero, _⟩
        · exact Or.inl gone
        · exact (notZero _ (Prod.ext zero rfl)).elim

end RdmaPaging
