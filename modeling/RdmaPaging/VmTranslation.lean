import RdmaPaging.VmClone

/-!
What the processor sees of a clone. The entries of upper tables grant every right, so a
4 KB translation depends on its last entry alone.
-/

namespace RdmaPaging

open RadixTree

variable {mem next : PhysAddr → Nat → Ptent} {root new : PhysAddr}

/-- The walk for `va` ends at a present entry for a big page. -/
@[grind =] def mapsBig (mem : PhysAddr → Nat → Ptent) : Nat → PhysAddr → Nat → Bool
  | 0, _, _ => false
  | level + 1, dir, va =>
      let pte := mem dir (pdx (level + 1) va)
      ptePresent pte && (bigSlot (level + 1) .none pte || mapsBig mem level (pteAddr pte) va)

/-- The translation of `va` by a 4 KB entry. -/
def leafOnly (pte : Ptent) (va : Nat) : Option Translation :=
  if ptePresent pte then some (leafTranslation [] pte pgshift va) else none

/-- The clone translates every address as the old root does, the old root translates as
before, and the two have no table in common. -/
def CloneFaithful (root : PhysAddr) (vm : Vm) : Prop :=
  ∃ new, (vmClone root vm).1 = some (some new) ∧
    (∀ va, translate (vmClone root vm).2.mem new va = translate vm.mem root va) ∧
    (∀ va, translate (vmClone root vm).2.mem root va = translate vm.mem root va) ∧
    ∀ low lower dir, (treeOf new).Table (vmClone root vm).2.mem low dir →
      ¬ (treeOf root).Table (vmClone root vm).2.mem lower dir

/-- A flag of an entry, read through `PTE_FLAGS` or not. -/
theorem has_flags {flag : Ptent} (isFlag : 0xfff0000000000fff#64 &&& flag = flag) (pte : Ptent) :
    Ptent.has (pteFlags pte) flag = Ptent.has pte flag := by
  rw [Ptent.has, Ptent.has, pteFlags, BitVec.and_assoc, isFlag]

theorem ptePresent_has (pte : Ptent) : ptePresent pte = Ptent.has pte pteP :=
  has_flags (by decide) pte

theorem has_table (page : PhysAddr) (flag : Ptent) (outside : pteAddr flag = 0) :
    Ptent.has (pteAddr page ||| pteDefFlags) flag = Ptent.has pteDefFlags flag := by
  have apart : 0xffffffffff000#64 &&& flag = 0 := by
    rw [BitVec.and_comm]
    exact outside
  simp only [Ptent.has, pteAddr, BitVec.and_or_distrib_right, BitVec.and_assoc, apart]
  simp

/-- Entries of upper tables take no right away. -/
theorem leafTranslation_tables (above : List Ptent)
    (tables : ∀ pte ∈ above, pte = pteAddr pte ||| pteDefFlags) (leaf : Ptent) (shift va : Nat) :
    leafTranslation above leaf shift va = leafTranslation [] leaf shift va := by
  have writes : above.all (fun pte => Ptent.has pte pteW) = true := by
    rw [List.all_eq_true]
    intro pte member
    rw [tables pte member, has_table _ _ (by decide)]
    decide
  have users : above.all (fun pte => Ptent.has pte pteU) = true := by
    rw [List.all_eq_true]
    intro pte member
    rw [tables pte member, has_table _ _ (by decide)]
    decide
  have executes : above.any (fun pte => Ptent.has pte pteNx) = false := by
    rw [List.any_eq_false]
    intro pte member
    rw [tables pte member, has_table _ _ (by decide)]
    decide
  simp only [leafTranslation, List.all_cons, List.any_cons, writes, users, executes, List.all_nil,
    List.any_nil]

theorem entryTable.present_or {level : Nat} {pte : Ptent} (plain : entryTable level pte) :
    pte = 0 ∨ ptePresent pte = true ∧ pteBig pte = false ∧ pte = pteAddr pte ||| pteDefFlags := by
  rcases plain with isZero | isTable
  · exact Or.inl isZero
  · refine Or.inr ⟨?_, ?_, isTable⟩
    · rw [isTable]
      exact ptePresent_table _
    · rw [isTable]
      exact pteBig_table _

theorem leafOnly_absent {pte : Ptent} (absent : ptePresent pte = false) (va : Nat) :
    leafOnly pte va = none := by
  simp [leafOnly, absent]

theorem leafOnly_zero (va : Nat) : leafOnly 0 va = none := leafOnly_absent (by decide) va

/-- A tree whose entries are as libdune builds them. -/
def Built (mem : PhysAddr → Nat → Ptent) (level : Nat) (dir : PhysAddr) : Prop :=
  ∀ low table index, Within nptentries tableOf mem level dir (low + 1) table → index < nptentries →
    entryBuilt (low + 1) (mem table index)

theorem Forest.built (forest : Forest entryBuilt mem [treeOf root]) : Built mem 3 root :=
  fun low table index inside bound =>
    forest.entries (treeOf root) (by simp) low table index inside bound

theorem Built.below {level va : Nat} {dir : PhysAddr} (built : Built mem (level + 1) dir)
    (small : bigSlot (level + 1) .none (mem dir (pdx (level + 1) va)) = false)
    (present : ptePresent (mem dir (pdx (level + 1) va)) = true) :
    Built mem level (pteAddr (mem dir (pdx (level + 1) va))) := by
  intro low table index inside bound
  exact built low table index
    (.under (pdx_bound _ va) (tableOf_present small present) inside) bound

/-- A present entry that does not end the walk is a table entry. -/
theorem Built.table {level va : Nat} {dir : PhysAddr} (built : Built mem (level + 1) dir)
    (small : bigSlot (level + 1) .none (mem dir (pdx (level + 1) va)) = false)
    (present : ptePresent (mem dir (pdx (level + 1) va)) = true) :
    pteBig (mem dir (pdx (level + 1) va)) = false ∧ mem dir (pdx (level + 1) va) =
      pteAddr (mem dir (pdx (level + 1) va)) ||| pteDefFlags := by
  have entry := built level dir (pdx (level + 1) va) (.here _ dir) (pdx_bound _ va)
  rcases entry with plain | ⟨middle, big⟩
  · refine ⟨plain.small, ?_⟩
    rcases plain with isZero | isTable
    · rw [isZero] at present
      exact absurd present (by decide)
    · exact isTable
  · simp only [bigSlot, big, Bool.or_true, Bool.and_true, Bool.or_eq_false_iff,
      decide_eq_false_iff_not] at small
    omega

/-- Where no big page is mapped the processor sees the entry that a clone gets. -/
theorem translateFrom_target {level va : Nat} {dir : PhysAddr} {above : List Ptent}
    (built : Built mem level dir) (tables : ∀ pte ∈ above, pte = pteAddr pte ||| pteDefFlags)
    (small : mapsBig mem level dir va = false) :
    translateFrom mem level dir above va = leafOnly (cloneTarget mem level dir va) va := by
  induction level generalizing dir above with
  | zero =>
      rw [translateFrom, cloneTarget, leafOnly, leafTranslation_tables above tables]
  | succ level ih =>
      simp only [mapsBig, Bool.and_eq_false_iff, Bool.or_eq_false_iff] at small
      simp only [translateFrom, cloneTarget]
      by_cases present : ptePresent (mem dir (pdx (level + 1) va)) = true
      · obtain ⟨slot, deeper⟩ := small.resolve_left (by simp [present])
        obtain ⟨notBig, isTable⟩ := built.table slot present
        rw [if_neg (by simp [present]), if_neg (by simp [slot]), if_neg (by simp [notBig]),
          if_neg (by simp [slot]), if_pos present]
        refine ih (built.below slot present) (fun pte member => ?_) deeper
        rcases List.mem_cons.mp member with isEntry | old
        · rw [isEntry]
          exact isTable
        · exact tables pte old
      · have absent : ptePresent (mem dir (pdx (level + 1) va)) = false := by simpa using present
        rw [if_pos present]
        by_cases slot : bigSlot (level + 1) .none (mem dir (pdx (level + 1) va)) = true
        · rw [if_pos slot]
          split
          · rw [leafOnly_absent absent]
          · rw [leafOnly_zero]
        · rw [if_neg slot, if_neg present, leafOnly_zero]

theorem translateFrom_big {level va : Nat} {dir : PhysAddr} {above : List Ptent}
    (built : Built mem level dir) (big : mapsBig mem level dir va = true) :
    translateFrom mem level dir above va ≠ none := by
  induction level generalizing dir above with
  | zero => simp [mapsBig] at big
  | succ level ih =>
      simp only [mapsBig, Bool.and_eq_true, Bool.or_eq_true] at big
      obtain ⟨present, ends⟩ := big
      simp only [translateFrom]
      rw [if_neg (by simp [present])]
      split
      · simp
      · rename_i slot
        have small : bigSlot (level + 1) .none (mem dir (pdx (level + 1) va)) = false := by
          simpa using slot
        obtain ⟨notBig, _⟩ := built.table small present
        rw [if_neg (by simp [notBig])]
        exact ih (built.below small present) (ends.resolve_left slot)

/-- Where the tables lead to a 4 KB entry the processor sees that entry. -/
theorem translateFrom_reach {level va : Nat} {dir leaf : PhysAddr} {above : List Ptent}
    (built : Built mem level dir) (tables : ∀ pte ∈ above, pte = pteAddr pte ||| pteDefFlags)
    (leads : reach tableOf mem (fun level => pdx level va) level dir = some leaf) :
    translateFrom mem level dir above va = leafOnly (mem leaf (pdx 0 va)) va := by
  induction level generalizing dir above with
  | zero =>
      obtain rfl : dir = leaf := Option.some.inj leads
      rw [translateFrom, leafOnly, leafTranslation_tables above tables]
  | succ level ih =>
      simp only [reach] at leads
      split at leads
      · rename_i below points
        obtain ⟨slot, present, isTable⟩ := tableOf_some points
        obtain ⟨notBig, entry⟩ := built.table slot present
        simp only [translateFrom]
        rw [if_neg (by simp [present]), if_neg (by simp [slot]), if_neg (by simp [notBig])]
        refine ih (built.below slot present) (fun pte member => ?_) (isTable ▸ leads)
        rcases List.mem_cons.mp member with isEntry | old
        · rw [isEntry]
          exact entry
        · exact tables pte old
      · simp at leads

/-- A big page has an address that its clone does not map. -/
theorem mapsBig_uncloned {level va : Nat} {dir : PhysAddr} (big : mapsBig mem level dir va = true) :
    ∃ other, other / entrySpan (level + 1) = va / entrySpan (level + 1) ∧
      mapsBig mem level dir other = true ∧ cloneTarget mem level dir other = 0 := by
  induction level generalizing dir with
  | zero => simp [mapsBig] at big
  | succ level ih =>
      simp only [mapsBig, Bool.and_eq_true, Bool.or_eq_true] at big
      obtain ⟨present, ends⟩ := big
      have upward : ∀ other, other / entrySpan (level + 1) = va / entrySpan (level + 1) →
          pdx (level + 1) other = pdx (level + 1) va ∧
          other / entrySpan (level + 2) = va / entrySpan (level + 2) := by
        intro other same
        refine ⟨by rw [pdx_eq, pdx_eq, same], ?_⟩
        rw [entrySpan_succ, Nat.mul_comm, ← Nat.div_div_eq_div_mul, ← Nat.div_div_eq_div_mul, same]
      by_cases slot : bigSlot (level + 1) .none (mem dir (pdx (level + 1) va)) = true
      · have wide : entrySpan 0 < entrySpan (level + 1) :=
          Nat.pow_lt_pow_right (by decide) (by omega)
        have pos := entrySpan_pos (level + 1)
        have same : (va / entrySpan (level + 1) * entrySpan (level + 1) + entrySpan 0) /
            entrySpan (level + 1) = va / entrySpan (level + 1) := by
          rw [Nat.mul_comm, Nat.mul_add_div pos, Nat.div_eq_of_lt wide, Nat.add_zero]
        have rest : (va / entrySpan (level + 1) * entrySpan (level + 1) + entrySpan 0) %
            entrySpan (level + 1) = entrySpan 0 := by
          rw [Nat.mul_comm, Nat.mul_add_mod, Nat.mod_eq_of_lt wide]
        obtain ⟨index, above⟩ := upward _ same
        refine ⟨_, above, ?_, ?_⟩
        · simp [mapsBig, index, present, slot]
        · simp only [cloneTarget, index, rest, slot, if_true]
          exact if_neg (Nat.lt_irrefl _)
      · obtain ⟨other, same, stays, blank⟩ := ih (ends.resolve_left slot)
        obtain ⟨index, above⟩ := upward other same
        refine ⟨other, above, ?_, ?_⟩
        · simp [mapsBig, index, present, stays]
        · simp only [cloneTarget, index]
          rw [if_neg slot, if_pos present]
          exact blank

/-! Addresses beyond the 48 translated bits. -/

theorem entrySpan_canonical {level : Nat} (bound : level ≤ 4) : entrySpan level ∣ 2 ^ 48 :=
  Nat.pow_dvd_pow 2 (by unfold pgshift; omega)

theorem pdx_canonical {level : Nat} (bound : level ≤ 3) (va : Nat) :
    pdx level (va % 2 ^ 48) = pdx level va := by
  obtain ⟨times, span⟩ : entrySpan (level + 1) ∣ 2 ^ 48 := entrySpan_canonical (by omega)
  rw [entrySpan_succ, Nat.mul_comm nptentries] at span
  rw [pdx_eq, pdx_eq, span, Nat.mul_assoc, Nat.mod_mul_right_div_self, Nat.mod_mul_right_mod]

theorem cloneTarget_canonical {level : Nat} (bound : level ≤ 3) (dir : PhysAddr) (va : Nat) :
    cloneTarget mem level dir (va % 2 ^ 48) = cloneTarget mem level dir va := by
  induction level generalizing dir with
  | zero => rw [cloneTarget, cloneTarget, pdx_canonical bound]
  | succ level ih =>
      have rest := Nat.mod_mod_of_dvd va (entrySpan_canonical (show level + 1 ≤ 4 by omega))
      simp only [cloneTarget, pdx_canonical bound, rest, ih (by omega)]

theorem leafWord_canonical (mem : PhysAddr → Nat → Ptent) (root : PhysAddr) (va : Nat) :
    leafWord mem root (va % 2 ^ 48) = leafWord mem root va :=
  wordAt_route fun _ bound => pdx_canonical bound va

/-! The new root. -/

theorem plain_target {level : Nat} {dir : PhysAddr} (va : Nat)
    (plain : ∀ low table index, Within nptentries tableOf mem level dir (low + 1) table →
      index < nptentries → entryTable (low + 1) (mem table index)) :
    mapsBig mem level dir va = false ∧
      cloneTarget mem level dir va = wordAt tableOf 0 mem (fun level => pdx level va) level dir := by
  induction level generalizing dir with
  | zero => exact ⟨rfl, rfl⟩
  | succ level ih =>
      have entry := plain level dir (pdx (level + 1) va) (.here _ dir) (pdx_bound _ va)
      have slot : bigSlot (level + 1) .none (mem dir (pdx (level + 1) va)) = false := by
        simp [bigSlot, entry.small]
      simp only [mapsBig, cloneTarget, wordAt]
      rw [slot]
      by_cases present : ptePresent (mem dir (pdx (level + 1) va)) = true
      · have points := tableOf_present slot present
        obtain ⟨small, word⟩ := ih fun low table index inside bound =>
          plain low table index (.under (pdx_bound _ va) points inside) bound
        rw [points, small, word]
        simp [present]
      · have points : tableOf level (mem dir (pdx (level + 1) va)) = none := by
          simp [tableOf, slot, present]
        rw [points]
        simp [present]

theorem translate_plain (plain : Forest entryTable mem [treeOf new]) (va : Nat) :
    translate mem new va = leafOnly (leafWord mem new va) va := by
  have entries : ∀ low table index, Within nptentries tableOf mem 3 new (low + 1) table →
      index < nptentries → entryTable (low + 1) (mem table index) :=
    plain.entries (treeOf new) (by simp)
  obtain ⟨small, word⟩ := plain_target va entries
  have built : Built mem 3 new := fun low table index inside bound =>
    Or.inl (entries low table index inside bound)
  rw [translate, translateFrom_target built (by simp) small, word, leafWord]

/-- A root whose tables are unchanged translates as before. -/
theorem translateFrom_congr {level va : Nat} {dir : PhysAddr} {above : List Ptent}
    (agree : ∀ low table, Within nptentries tableOf mem level dir low table →
      ∀ index < nptentries, next table index = mem table index) :
    translateFrom next level dir above va = translateFrom mem level dir above va := by
  induction level generalizing dir above with
  | zero => rw [translateFrom, translateFrom, agree 0 dir (.here 0 dir) _ (pdx_bound _ va)]
  | succ level ih =>
      rw [translateFrom, translateFrom, agree _ dir (.here _ dir) _ (pdx_bound _ va)]
      split
      · rfl
      · rename_i present
        split
        · rfl
        · rename_i slot
          split
          · rfl
          · apply ih
            intro low table inside
            have points := tableOf_present (by simpa using slot) (by simpa using present)
            exact agree low table (.under (pdx_bound _ va) points inside)

theorem clone_translates {before vm : Vm} (inv : CloneInv before root new (2 ^ 48) vm) (va : Nat) :
    translate vm.mem new va = leafOnly (cloneTarget before.mem 3 root va) va := by
  have canonical : va % 2 ^ 48 < 2 ^ 48 := Nat.mod_lt _ (by decide)
  have word := inv.words (va % 2 ^ 48) canonical
  rw [if_pos canonical, leafWord_canonical, cloneTarget_canonical (by decide)] at word
  rw [translate_plain inv.plain, word]

/-- A clone is faithful exactly when the root maps no big page. -/
theorem clone_faithful_iff {vm : Vm} (built : RootBuilt vm root)
    (succeeds : ¬ exhausted (vmClone root vm).2.pool) :
    CloneFaithful root vm ↔ ∀ va, mapsBig vm.mem 3 root va = false := by
  obtain ⟨new, result, inv⟩ := vmClone_cloned built succeeds
  have entries := Forest.built built.forest
  constructor
  · rintro ⟨other, otherResult, translates, _⟩ va
    rw [result, Option.some.injEq, Option.some.injEq] at otherResult
    subst otherResult
    by_contra isBig
    have big : mapsBig vm.mem 3 root va = true := by simpa using isBig
    obtain ⟨missing, _, stays, blank⟩ := mapsBig_uncloned big
    apply translateFrom_big entries stays
    have same := translates missing
    rw [clone_translates inv, blank, leafOnly_zero] at same
    exact same.symm
  · intro small
    refine ⟨new, result, fun va => ?_, fun va => ?_, fun low lower dir inNew inRoot => ?_⟩
    · rw [clone_translates inv, translate, translateFrom_target entries (by simp) (small va)]
    · exact translateFrom_congr fun low table inside => inv.same low table inside
    · exact inv.new_ne_root inNew (inv.root_table.mpr inRoot) rfl

theorem clone_faithful_iff_mapped :
    (translate mappedVm.mem 0x1000#64 0).isSome ∧ CloneFaithful 0x1000#64 mappedVm := by
  refine ⟨by decide +kernel, ?_⟩
  have plain : ∀ low table index,
      Within nptentries tableOf mappedVm.mem 3 0x1000#64 (low + 1) table → index < nptentries →
      entryTable (low + 1) (mappedVm.mem table index) :=
    mappedVm_grounded.forest.entries (treeOf 0x1000#64) (by simp)
  refine (clone_faithful_iff (mappedVm_grounded.weaken fun _ _ => Or.inl) mappedVm_clones).mpr fun va => ?_
  exact (plain_target va plain).1

/-- The first big page of the pool, mapped as `dune_init` maps it. -/
def bigVm : Vm :=
  (vmMapPhys 0x1000#64 0x200000000 0x200000 pageBase (permR ||| permW ||| permBig) blankVm).2

/-- The clone of the big page, and an address that it misses. -/
theorem big_clone : ¬ exhausted (vmClone 0x1000#64 bigVm).2.pool ∧
    (vmClone 0x1000#64 bigVm).1 = some (some (pageToPa 509)) ∧
    translate (vmClone 0x1000#64 bigVm).2.mem (pageToPa 509) 0x200001000 ≠
      translate bigVm.mem 0x1000#64 0x200001000 := by
  unfold exhausted outgrown
  decide +kernel

theorem clone_drops_big_page :
    ¬ exhausted (vmClone 0x1000#64 bigVm).2.pool ∧ ¬ CloneFaithful 0x1000#64 bigVm := by
  obtain ⟨succeeds, root, differs⟩ := big_clone
  refine ⟨succeeds, ?_⟩
  rintro ⟨new, result, translates, _⟩
  rw [root, Option.some.injEq, Option.some.injEq] at result
  subst result
  exact differs (translates _)

end RdmaPaging
