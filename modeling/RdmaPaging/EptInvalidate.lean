import RdmaPaging.EptNotifier

/-!
What the notifier's invalidations leave in the EPT. A pass over some pages empties the
entries of level 0 that the lookups find there, and changes nothing else, so it leaves a page
mapped only if a larger entry maps it.
-/

namespace RdmaPaging

/-- `gpa_to_hva` and `hva_to_gpa` are inverse on some pages of the process. -/
def InverseOn (config : EptConfig) (pages : VirtAddr → Prop) : Prop :=
  ∀ page gpa, pages page → gpa ≠ addrInval →
    (gpaToHva config.physBits config.mm gpa = page ↔ hvaToGpa config.physBits config.mm page = gpa)

/-- An entry through which the way of a guest-physical address leads, so that it covers the
address. -/
def Ept.Covers (ept : Ept) (slot : PteRef) (gpa : Nat) : Prop :=
  ∃ level, ept.tableFor gpa level = some slot.dir ∧ slot.index = pdx level gpa

/-- An invalidation of some pages: no entry of any size maps one of them, and the entries that
cover none of them are unchanged. -/
structure Invalidated (config : EptConfig) (pages : VirtAddr → Prop) (ept after : Ept) : Prop where
  unmapped : ∀ gpa, gpa ≠ addrInval → pages (gpaToHva config.physBits config.mm gpa) →
    after.leaf gpa.toNat = none
  unchanged : ∀ slot, (∀ gpa, gpa ≠ addrInval → pages (gpaToHva config.physBits config.mm gpa) →
    ¬ ept.Covers slot gpa.toNat) → after.mem slot.dir slot.index = ept.mem slot.dir slot.index

/-- One of the pages is mapped by an entry of 2 MB or 1 GB. -/
def HugeMapped (config : EptConfig) (pages : VirtAddr → Prop) (ept : Ept) : Prop :=
  ∃ gpa, gpa ≠ addrInval ∧ pages (gpaToHva config.physBits config.mm gpa) ∧
    HugeLeaf ept gpa.toNat

/-- The pages of an aligned range. -/
def RangePage (start stop page : VirtAddr) : Prop :=
  start ≤ page ∧ page < stop ∧ page.toNat % 4096 = 0

/-- `after` is `ept` with the entries emptied that the lookups of some addresses find. -/
structure PagesCleared (config : EptConfig) (pages : VirtAddr → Prop) (ept after : Ept) : Prop where
  tree : EptTree after
  tables : ∀ gpa, after.tableFor gpa 0 = ept.tableFor gpa 0
  emptied : ∀ page slot, pages page → eptFind config page ept = .ok slot →
    after.mem slot.dir slot.index = 0
  kept : ∀ slot, (∀ page, pages page → eptFind config page ept ≠ .ok slot) →
    after.mem slot.dir slot.index = ept.mem slot.dir slot.index
  larger : ∀ gpa, ept.tableFor gpa 0 = none → after.leaf gpa = ept.leaf gpa

variable {config : EptConfig} {ept middle after : Ept} {pages others : VirtAddr → Prop}
variable {slot : PteRef} {page start stop pos : VirtAddr}

theorem eptFind_iff (tree : EptTree ept) :
    eptFind config page ept = .ok slot ↔
      hvaToGpa config.physBits config.mm page ≠ addrInval ∧
        ept.tableFor (hvaToGpa config.physBits config.mm page).toNat 0 = some slot.dir ∧
        slot.index = pdx 0 (hvaToGpa config.physBits config.mm page).toNat := by
  obtain ⟨dir, index⟩ := slot
  rcases eptFind_cases config page tree with ⟨ret, failed, nowhere⟩ | ⟨table, valid, leads, found⟩
  · rw [failed]
    constructor
    · intro found
      exact absurd found (by simp)
    · rintro ⟨valid, leads, _⟩
      rw [nowhere valid] at leads
      exact absurd leads (by simp)
  · rw [found, leads]
    simp only [Except.ok.injEq, PteRef.mk.injEq, Option.some.injEq, ne_eq, valid,
      not_false_eq_true, true_and]
    exact and_congr_right fun _ => eq_comm

theorem PagesCleared.find (cleared : PagesCleared config pages ept after) (tree : EptTree ept) :
    eptFind config page after = .ok slot ↔ eptFind config page ept = .ok slot := by
  rw [eptFind_iff cleared.tree, eptFind_iff tree, cleared.tables]

theorem PagesCleared.nothing (tree : EptTree ept) (noPage : ∀ page, ¬ pages page) :
    PagesCleared config pages ept ept where
  tree := tree
  tables := fun _ => rfl
  emptied := fun page _ isPage => absurd isPage (noPage page)
  kept := fun _ _ => rfl
  larger := fun _ _ => rfl

theorem PagesCleared.trans (tree : EptTree ept) (first : PagesCleared config pages ept middle)
    (second : PagesCleared config others middle after) :
    PagesCleared config (fun page => pages page ∨ others page) ept after where
  tree := second.tree
  tables := fun gpa => (second.tables gpa).trans (first.tables gpa)
  emptied := fun page slot isPage found => by
    by_cases again : ∃ other, others other ∧ eptFind config other middle = .ok slot
    · obtain ⟨other, isOther, foundAgain⟩ := again
      exact second.emptied other slot isOther foundAgain
    · have isFirst : pages page := by
        rcases isPage with isFirst | isSecond
        · exact isFirst
        · exact absurd ⟨page, isSecond, (first.find tree).mpr found⟩ again
      rw [second.kept slot fun other isOther foundAgain => again ⟨other, isOther, foundAgain⟩]
      exact first.emptied page slot isFirst found
  kept := fun slot missed => by
    rw [second.kept slot fun page isPage found =>
      missed page (Or.inr isPage) ((first.find tree).mp found)]
    exact first.kept slot fun page isPage => missed page (Or.inl isPage)
  larger := fun gpa nowhere => by
    rw [second.larger gpa ((first.tables gpa).trans nowhere), first.larger gpa nowhere]

theorem PagesCleared.congr (cleared : PagesCleared config pages ept after)
    (same : ∀ page, pages page ↔ others page) : PagesCleared config others ept after := by
  rwa [← funext fun page => propext (same page)]

/-! One page. -/

/-- Emptying an entry of level 0 changes no way to such an entry. -/
theorem Stored.tables_lowest {next : Ept} {epte : Epte} (stored : Stored ept next 0 slot epte)
    (tree : EptTree ept) (inside : ept.Inside 0 slot.dir) (gpa : Nat) :
    next.tableFor gpa 0 = ept.tableFor gpa 0 := by
  rw [Ept.tableFor, Ept.tableFor, stored.mem, stored.root]
  apply RadixTree.tableAt_congr (gpaRoute_lt gpa)
  intro low table above index _
  have apart : table ≠ slot.dir := by
    rintro rfl
    have level := tree.levels inside _ above
    omega
  rw [RadixTree.setWord, if_neg (by simp [apart])]

theorem eptInvalidatePage_clears (addr : VirtAddr) (tree : EptTree ept) :
    PagesCleared config (fun page => page = addr) ept (eptInvalidatePage config addr ept).2 := by
  rw [eptInvalidatePage]
  rcases found : eptFind config addr ept with ret | slot
  · refine ⟨tree, fun _ => rfl, ?_, fun _ _ => rfl, fun _ _ => rfl⟩
    rintro page slot rfl other
    rw [found] at other
    exact absurd other (by simp)
  · obtain ⟨inside, bound⟩ := eptFind_inside tree found
    have empties : Emptied ept (eptClearEpte slot ept).2 0 slot :=
      eptClear_leaf_emptied tree inside bound
    have tables := empties.stored.tables_lowest tree inside
    refine ⟨empties.tree tree inside bound, tables, ?_, ?_, ?_⟩
    · rintro page other rfl same
      rw [found, Except.ok.injEq] at same
      subst same
      exact empties.zero
    · rintro ⟨dir, index⟩ missed
      have apart : ¬ (dir = slot.dir ∧ index = slot.index) := by
        rintro ⟨rfl, rfl⟩
        exact missed addr rfl found
      rw [clearFound, empties.stored.mem, RadixTree.setWord, if_neg apart]
    · intro gpa nowhere
      rw [clearFound, empties.stored.leaf_eq tree inside, if_neg]
      rw [nowhere]
      simp

/-! The range. -/

/-- A pass does what `ept_invalidate_page` does, and goes on to the next page. -/
theorem rangePass_page (pos : VirtAddr) (tree : EptTree ept) :
    rangePass (eptFind config pos ept) pos ept =
      (pos + 0x1000#64, (eptInvalidatePage config pos ept).2) := by
  rw [eptInvalidatePage]
  rcases found : eptFind config pos ept with ret | slot
  · rfl
  · obtain ⟨inside, bound⟩ := eptFind_inside tree found
    have small : epteBig (ept.mem slot.dir slot.index) = false := by
      rcases tree.shape 0 slot.dir slot.index inside bound with zero | ⟨_, levels⟩
      · rw [zero]
        decide
      · by_contra big
        have level := levels (by simpa using big)
        omega
    simp only [rangePass, clearFound, small, Bool.false_eq_true, if_false]

theorem invalidateLoop_clears (stopAligned : stop.toNat % 4096 = 0) (left : Nat)
    {fuel : Nat} (enough : left < fuel) (aligned : pos.toNat % 4096 = 0)
    (reach : stop.toNat ≤ pos.toNat + 4096 * left) (tree : EptTree ept) :
    ∃ after, invalidateLoop config stop fuel (pos, ept) = some after ∧
      PagesCleared config (RangePage pos stop) ept after := by
  induction left generalizing pos ept fuel with
  | zero =>
      obtain ⟨fuel, rfl⟩ := Nat.exists_eq_succ_of_ne_zero (Nat.ne_of_gt enough)
      have ended : ¬ pos < stop := by
        rw [BitVec.lt_def]
        omega
      refine ⟨ept, by rw [invalidateLoop, if_neg ended], PagesCleared.nothing tree ?_⟩
      rintro page ⟨after, before, _⟩
      rw [BitVec.le_def] at after
      rw [BitVec.lt_def] at before
      omega
  | succ left ih =>
      obtain ⟨fuel, rfl⟩ := Nat.exists_eq_succ_of_ne_zero (Nat.ne_of_gt (Nat.zero_lt_of_lt enough))
      by_cases going : pos < stop
      · rw [BitVec.lt_def] at going
        have next : (pos + 0x1000#64).toNat = pos.toNat + 4096 := by
          have size : (0x1000#64).toNat = 4096 := rfl
          have high := stop.isLt
          rw [BitVec.toNat_add, size]
          omega
        have cleared : PagesCleared config (fun page => page = pos) ept
            (eptInvalidatePage config pos ept).2 := eptInvalidatePage_clears pos tree
        have nextAligned : (pos + 0x1000#64).toNat % 4096 = 0 := by omega
        obtain ⟨after, looped, rest⟩ :=
          ih (Nat.lt_of_succ_lt_succ enough) nextAligned (by omega) cleared.tree
        refine ⟨after, ?_, (cleared.trans tree rest).congr fun page => ?_⟩
        · rw [invalidateLoop, if_pos (BitVec.lt_def.mpr going), rangePass_page pos tree]
          exact looped
        · simp only [RangePage, BitVec.le_def, BitVec.lt_def, next]
          constructor
          · rintro (rfl | ⟨after, before, onPage⟩)
            · exact ⟨Nat.le_refl _, going, aligned⟩
            · exact ⟨by omega, before, onPage⟩
          · rintro ⟨after, before, onPage⟩
            by_cases first : page = pos
            · exact Or.inl first
            · have different : page.toNat ≠ pos.toNat := fun same => first (BitVec.eq_of_toNat_eq same)
              exact Or.inr ⟨by omega, before, onPage⟩
      · refine ⟨ept, by rw [invalidateLoop, if_neg going], PagesCleared.nothing tree ?_⟩
        rintro page ⟨after, before, _⟩
        rw [BitVec.lt_def] at going before
        rw [BitVec.le_def] at after
        omega

theorem invalidateRange_clears (startAligned : start.toNat % 4096 = 0)
    (stopAligned : stop.toNat % 4096 = 0) (tree : EptTree ept) :
    ∃ after, eptMmuNotifierInvalidateRangeStart config start stop ept = some after ∧
      PagesCleared config (RangePage start stop) ept after := by
  have high := stop.isLt
  exact invalidateLoop_clears stopAligned (2 ^ 52) (Nat.lt_succ_self _) startAligned (by omega) tree

/-! What is left. -/

theorem PagesCleared.unmapped (cleared : PagesCleared config pages ept after)
    (tree : EptTree ept) {gpa : PhysAddr} (valid : gpa ≠ addrInval)
    (names : hvaToGpa config.physBits config.mm page = gpa) (isPage : pages page)
    (small : ¬ HugeLeaf ept gpa.toNat) : after.leaf gpa.toNat = none := by
  subst names
  rcases leads : ept.tableFor (hvaToGpa config.physBits config.mm page).toNat 0 with _ | table
  · rw [cleared.larger _ leads, ← Option.not_isSome_iff_eq_none, Ept.leaf_isSome]
    intro present
    refine small ⟨fun lowest => ?_, present⟩
    rw [Ept.walk, RadixTree.leafAt_lowest] at lowest
    obtain ⟨table, other⟩ := lowest
    rw [Ept.tableFor] at leads
    rw [leads] at other
    exact absurd other (by simp)
  · have zero := cleared.emptied page
      ⟨table, pdx 0 (hvaToGpa config.physBits config.mm page).toNat⟩ isPage
      ((eptFind_iff tree).mpr ⟨valid, leads, rfl⟩)
    have later := (cleared.tables _).trans leads
    rw [Ept.tableFor] at later
    rw [Ept.leaf, Ept.walk, RadixTree.leafAt_of_tableAt later]
    exact if_neg (by simp [RadixTree.leafAt, gpaRoute, zero])

theorem PagesCleared.invalidated_iff (cleared : PagesCleared config pages ept after)
    (tree : EptTree ept) (inverse : InverseOn config pages) :
    Invalidated config pages ept after ↔ ¬ HugeMapped config pages ept := by
  constructor
  · rintro done ⟨gpa, valid, isPage, huge⟩
    have unmapped := done.unmapped gpa valid isPage
    have nowhere : ept.tableFor gpa.toNat 0 = none := by
      rw [← Option.not_isSome_iff_eq_none, Option.isSome_iff_exists]
      intro leads
      rw [HugeLeaf, Ept.walk, ne_eq, RadixTree.leafAt_lowest] at huge
      exact huge.1 leads
    rw [cleared.larger _ nowhere, ← Option.not_isSome_iff_eq_none, Ept.leaf_isSome] at unmapped
    exact unmapped huge.2
  · intro small
    refine ⟨fun gpa valid isPage => ?_, fun slot missed => cleared.kept slot ?_⟩
    · exact cleared.unmapped tree valid ((inverse _ gpa isPage valid).mp rfl) isPage
        fun huge => small ⟨gpa, valid, isPage, huge⟩
    · intro page isPage found
      obtain ⟨valid, leads, index⟩ := (eptFind_iff tree).mp found
      have names := (inverse page _ isPage valid).mpr rfl
      refine missed _ valid ?_ ⟨0, leads, index⟩
      rwa [names]

/-- In every run an invalidation of a page or of an aligned range is complete exactly when
none of its pages is mapped by an entry of 2 MB or 1 GB, and it always ends. -/
theorem invalidation_complete_iff (mem : PhysAddr → Nat → Epte) (root : Option PageFrame)
    {first : Ept} (init : vmxInitEpt mem root = .ok first)
    (run : Machine.Reaches (eptStep config) eptGuard first ept) :
    (∀ addr, InverseOn config (fun page => page = addr) →
      (Invalidated config (fun page => page = addr) ept
          (eptMmuNotifierInvalidatePage config addr ept).2 ↔
        ¬ HugeMapped config (fun page => page = addr) ept) ∧
      (Invalidated config (fun page => page = addr) ept
          (eptMmuNotifierChangePte config addr ept).2 ↔
        ¬ HugeMapped config (fun page => page = addr) ept)) ∧
    ∀ start stop, start.toNat % 4096 = 0 → stop.toNat % 4096 = 0 →
      InverseOn config (RangePage start stop) →
      ∃ after, eptMmuNotifierInvalidateRangeStart config start stop ept = some after ∧
        (Invalidated config (RangePage start stop) ept after ↔
          ¬ HugeMapped config (RangePage start stop) ept) := by
  have tree := (reaches_balanced init run).1
  refine ⟨fun addr inverse => ?_, fun start stop startAligned stopAligned inverse => ?_⟩
  · have cleared : PagesCleared config (fun page => page = addr) ept
        (eptInvalidatePage config addr ept).2 := eptInvalidatePage_clears addr tree
    exact ⟨cleared.invalidated_iff tree inverse, cleared.invalidated_iff tree inverse⟩
  · obtain ⟨after, ended, cleared⟩ : ∃ after,
        eptMmuNotifierInvalidateRangeStart config start stop ept = some after ∧
          PagesCleared config (RangePage start stop) ept after :=
      invalidateRange_clears startAligned stopAligned tree
    exact ⟨after, ended, cleared.invalidated_iff tree inverse⟩

/-- Where the identity region and the windows are apart, the two maps are inverse. -/
theorem inverseOn_of_apart (wide : 36 ≤ config.physBits) (narrow : config.physBits ≤ 52)
    (usual : UsualLayout config.mm) (windows : WindowsApart config.physBits config.mm)
    (proper : ∀ page, pages page → page ≠ addrInval) : InverseOn config pages := by
  intro page gpa isPage valid
  constructor
  · rintro rfl
    exact hvaToGpa_gpaToHva wide narrow usual windows
      (gpa_inside (by omega) narrow (proper _ isPage))
  · rintro rfl
    exact gpaToHva_hvaToGpa (by omega) narrow valid

def spacedEpt : EptConfig where
  physBits := 39
  mm := spacedMm
  adEnabled := true

theorem spacedEpt_inverseOn (proper : ∀ page, pages page → page ≠ addrInval) :
    InverseOn spacedEpt pages := by
  have limit : (physEnd spacedEpt.physBits).toNat = 0x8000000000 := by decide
  have mmap : (lgAlign spacedEpt.mm.mmapBase).toNat = 0x7f0000000000 := by decide
  have stack : (lgAlign spacedEpt.mm.startStack).toNat = 0x7fff12400000 := by decide
  have windows : WindowsApart spacedEpt.physBits spacedEpt.mm := by
    rw [WindowsApart, gpaStackSize_toNat]
    omega
  have usual : UsualLayout spacedEpt.mm := spacedMm_usual
  exact inverseOn_of_apart (by decide) (by decide) usual windows proper

theorem RangePage.proper (inRange : RangePage start stop page) : page ≠ addrInval := by
  rintro rfl
  have value : addrInval.toNat = 2 ^ 64 - 1 := by decide
  have before := BitVec.lt_def.mp inRange.2.1
  omega

theorem youngEpt_spaced : Machine.Reaches (eptStep spacedEpt) eptGuard firstEpt youngEpt :=
  .tail .refl (show eptGuard firstEpt (.fault 0x400000#64 0#32
    (some ⟨⟨0x5000#64, by decide⟩, ⟨0x5000#64, by decide⟩, 0⟩) .noVma threeTables) from
    threeTables_fresh) rfl

theorem hugeEpt_spaced : Machine.Reaches (eptStep spacedEpt) eptGuard firstEpt hugeEpt :=
  .tail .refl (show eptGuard firstEpt (.fault 0x200000#64 vmxEptFaultWrite (some hugePage) .noVma
    threeTables) from threeTables_fresh) rfl

/-- Two pages, one of them mapped by an entry of 4 KB. -/
theorem invalidation_complete_iff_young :
    ∃ after, eptMmuNotifierInvalidateRangeStart spacedEpt 0x400000#64 0x402000#64 youngEpt =
        some after ∧
      Invalidated spacedEpt (RangePage 0x400000#64 0x402000#64) youngEpt after := by
  have inverse : InverseOn spacedEpt (RangePage 0x400000#64 0x402000#64) :=
    spacedEpt_inverseOn fun _ => RangePage.proper
  obtain ⟨after, ended, complete⟩ := (invalidation_complete_iff (fun _ _ => 0)
    (some ⟨0x1000#64, by decide⟩)
    (show vmxInitEpt (fun _ _ => 0) (some ⟨0x1000#64, by decide⟩) = .ok firstEpt from rfl)
    youngEpt_spaced).2 0x400000#64 0x402000#64 (by decide) (by decide) inverse
  refine ⟨after, ended, complete.mpr ?_⟩
  rintro ⟨gpa, valid, isPage, huge⟩
  have names := (inverse _ gpa isPage valid).mp rfl
  obtain ⟨above, before, aligned⟩ := isPage
  generalize gpaToHva spacedEpt.physBits spacedEpt.mm gpa = page at names above before aligned
  rw [BitVec.le_def] at above
  rw [BitVec.lt_def] at before
  have first : (0x400000#64).toNat = 0x400000 := rfl
  have last : (0x402000#64).toNat = 0x402000 := rfl
  have two : page = 0x400000#64 ∨ page = 0x401000#64 := by
    rcases (show page.toNat = 0x400000 ∨ page.toNat = 0x401000 by omega) with value | value
    · exact Or.inl (BitVec.eq_of_toNat_eq value)
    · exact Or.inr (BitVec.eq_of_toNat_eq value)
  have lowest : (youngEpt.walk gpa.toNat).1 = 0 := by
    rcases two with rfl | rfl <;> subst names <;> decide +kernel
  exact huge.1 lowest

/-- A page of 2 MB stays mapped after the host took it back, whichever callback told of it. -/
theorem huge_page_kept :
    Machine.Reaches (eptStep spacedEpt) eptGuard firstEpt hugeEpt ∧
      InverseOn spacedEpt (RangePage 0x200000#64 0x400000#64) ∧
      (∃ after, eptMmuNotifierInvalidateRangeStart spacedEpt 0x200000#64 0x400000#64 hugeEpt =
          some after ∧ after.leaf 0x200000 = hugeEpt.leaf 0x200000 ∧
        ¬ Invalidated spacedEpt (RangePage 0x200000#64 0x400000#64) hugeEpt after) ∧
      ¬ Invalidated spacedEpt (fun page => page = 0x200000#64) hugeEpt
        (eptMmuNotifierInvalidatePage spacedEpt 0x200000#64 hugeEpt).2 := by
  have tree := (reaches_balanced (show vmxInitEpt (fun _ _ => 0)
    (some ⟨0x1000#64, by decide⟩) = .ok firstEpt from rfl) hugeEpt_spaced).1
  have huge : HugeLeaf hugeEpt 0x200000 := ⟨by decide +kernel, by decide +kernel⟩
  have nowhere : hugeEpt.tableFor 0x200000 0 = none := by decide +kernel
  have inverse : InverseOn spacedEpt (RangePage 0x200000#64 0x400000#64) :=
    spacedEpt_inverseOn fun _ => RangePage.proper
  have single : InverseOn spacedEpt (fun page => page = 0x200000#64) := by
    apply spacedEpt_inverseOn
    rintro page rfl
    decide
  obtain ⟨after, ended, cleared⟩ : ∃ after,
      eptMmuNotifierInvalidateRangeStart spacedEpt 0x200000#64 0x400000#64 hugeEpt = some after ∧
        PagesCleared spacedEpt (RangePage 0x200000#64 0x400000#64) hugeEpt after :=
    invalidateRange_clears (by decide) (by decide) tree
  refine ⟨hugeEpt_spaced, inverse, ⟨after, ended, cleared.larger _ nowhere, ?_⟩, ?_⟩
  · rw [cleared.invalidated_iff tree inverse, not_not]
    exact ⟨0x200000#64, by decide, ⟨by decide, by decide, by decide⟩, huge⟩
  · rw [eptMmuNotifierInvalidatePage,
      (eptInvalidatePage_clears 0x200000#64 tree).invalidated_iff tree single, not_not]
    exact ⟨0x200000#64, by decide, by decide, huge⟩

end RdmaPaging
