import RdmaPaging.EptFault

/-!
The callbacks of the MMU notifier against the EPT that faults build: which addresses an
invalidation reaches, what the test of the accessed bit clears, and when the test for a
mapped page is right.
-/

namespace RdmaPaging

/-! Invalidation of what a fault entered. -/

/-- The aligned bases of the two windows, as the kernel's layouts have them. -/
structure UsualLayout (mm : MmStruct) : Prop where
  mmapLow : 2 ^ 31 ≤ (lgAlign mm.mmapBase).toNat
  mmapHigh : (lgAlign mm.mmapBase).toNat < 2 ^ 47
  stackLow : 2 ^ 31 ≤ (lgAlign mm.startStack).toNat
  stackHigh : (lgAlign mm.startStack).toNat < 2 ^ 47

/-- The identity region ends below the mapping window, and that window below the stack
window. -/
def WindowsApart (physBits : Nat) (mm : MmStruct) : Prop :=
  (physEnd physBits).toNat ≤ (lgAlign mm.mmapBase).toNat + gpaStackSize.toNat ∧
    (lgAlign mm.mmapBase).toNat + gpaStackSize.toNat ≤ (lgAlign mm.startStack).toNat

/-- Every address that a fault accepts is named by its process address alone, so that an
invalidation there looks up the address of the fault, and removes a page or a PFN mapping of
4 KB that the fault entered. -/
structure Invalidates (config : EptConfig) : Prop where
  back : ∀ gpa, gpaToHva config.physBits config.mm gpa ≠ addrInval →
    hvaToGpa config.physBits config.mm (gpaToHva config.physBits config.mm gpa) = gpa
  apart : ∀ gpa other, gpaToHva config.physBits config.mm gpa ≠ addrInval →
    gpaToHva config.physBits config.mm other ≠ addrInval →
    gpaToHva config.physBits config.mm gpa = gpaToHva config.physBits config.mm other → gpa = other
  looksUp : ∀ gpa ept, gpaToHva config.physBits config.mm gpa ≠ addrInval →
    eptFind config (gpaToHva config.physBits config.mm gpa) ept =
      (eptLookupGpa (fun _ => none) gpa 0 false ept).1
  removes : ∀ makeWrite gpa gup source supply ept faulted,
    gpaToHva config.physBits config.mm gpa ≠ addrInval → EptTree ept → Fresh ept supply →
    faultLevel gup = 0 → (gup = none → source ≠ .unfollowed 0) →
    eptSetEpte config makeWrite gpa gup source supply ept = (0, faulted) →
    faulted.leaf gpa.toNat ≠ none ∧
      (eptInvalidatePage config (gpaToHva config.physBits config.mm gpa) faulted).1 = 1 ∧
      (eptInvalidatePage config (gpaToHva config.physBits config.mm gpa) faulted).2.leaf
        gpa.toNat = none

section Layout

variable {physBits : Nat} {mm : MmStruct} {gpa : PhysAddr}

theorem gpaMapSize_toNat : gpaMapSize.toNat = 0x70000000 := by decide

theorem gpaStackSize_toNat : gpaStackSize.toNat = 0x10000000 := by decide

theorem UsualLayout.mmapStart (usual : UsualLayout mm) :
    mm.mmapStart.toNat = (lgAlign mm.mmapBase).toNat - 0x70000000 := by
  have low := usual.mmapLow
  rw [MmStruct.mmapStart, BitVec.toNat_sub, gpaMapSize_toNat]
  omega

theorem UsualLayout.stackStart (usual : UsualLayout mm) :
    mm.stackStart.toNat = (lgAlign mm.startStack).toNat - 0x10000000 := by
  have low := usual.stackLow
  rw [MmStruct.stackStart, BitVec.toNat_sub, gpaStackSize_toNat]
  omega

/-- Where `gpa_to_hva` sends the addresses of each region. -/
theorem gpaToHva_regions (wide : 36 ≤ physBits) (narrow : physBits ≤ 52) (usual : UsualLayout mm)
    (inside : gpa < physEnd physBits) :
    (gpa.toNat + 2 ^ 31 < (physEnd physBits).toNat ∧ gpaToHva physBits mm gpa = gpa) ∨
    ((physEnd physBits).toNat ≤ gpa.toNat + 2 ^ 31 ∧
      gpa.toNat + 2 ^ 28 < (physEnd physBits).toNat ∧
      (gpaToHva physBits mm gpa).toNat + (physEnd physBits).toNat =
        mm.mmapStart.toNat + gpa.toNat + 2 ^ 31) ∨
    ((physEnd physBits).toNat ≤ gpa.toNat + 2 ^ 28 ∧
      (gpaToHva physBits mm gpa).toNat + (physEnd physBits).toNat =
        mm.stackStart.toNat + gpa.toNat + 2 ^ 28) := by
  have mapBase := mapRegion_toNat (show 32 ≤ physBits by omega) narrow
  have stackBase := stackRegion_toNat (show 32 ≤ physBits by omega) narrow
  obtain ⟨low, high⟩ := physEnd_bounds (show 32 ≤ physBits by omega) narrow
  have mmapLow := usual.mmapLow
  have mmapHigh := usual.mmapHigh
  have stackLow := usual.stackLow
  have stackHigh := usual.stackHigh
  rw [usual.mmapStart, usual.stackStart]
  rw [BitVec.lt_def] at inside
  unfold gpaToHva
  split
  · rename_i identity
    rw [BitVec.lt_def, mapBase] at identity
    exact Or.inl ⟨by omega, rfl⟩
  · rename_i notIdentity
    rw [BitVec.lt_def, mapBase] at notIdentity
    split
    · rename_i inMap
      rw [BitVec.lt_def, stackBase] at inMap
      refine Or.inr (Or.inl ⟨by omega, by omega, ?_⟩)
      rw [BitVec.toNat_sub, BitVec.toNat_add, BitVec.toNat_sub, mapBase, gpaMapSize_toNat]
      omega
    · rename_i notMap
      rw [BitVec.lt_def, stackBase] at notMap
      refine Or.inr (Or.inr ⟨by omega, ?_⟩)
      rw [if_pos (BitVec.lt_def.mpr inside), BitVec.toNat_sub, BitVec.toNat_add,
        BitVec.toNat_sub, stackBase, gpaStackSize_toNat]
      omega

theorem hvaToGpa_identity {hva : VirtAddr} (wide : 36 ≤ physBits) (narrow : physBits ≤ 52)
    (belowStack : hva.toNat < mm.stackStart.toNat) (belowMap : hva.toNat < mm.mmapStart.toNat)
    (inside : hva.toNat + 2 ^ 31 < (physEnd physBits).toNat) : hvaToGpa physBits mm hva = hva := by
  have mapBase := mapRegion_toNat (show 32 ≤ physBits by omega) narrow
  rw [hvaToGpa, if_neg (by rw [BitVec.le_def]; omega), if_neg (by rw [BitVec.le_def]; omega),
    if_neg (by rw [BitVec.le_def]; omega)]

theorem hvaToGpa_map {hva : VirtAddr} (wide : 36 ≤ physBits) (narrow : physBits ≤ 52)
    (belowStack : hva.toNat < mm.stackStart.toNat) (aboveMap : mm.mmapStart.toNat ≤ hva.toNat)
    (inside : hva.toNat < mm.mmapStart.toNat + 0x70000000) :
    (hvaToGpa physBits mm hva).toNat + mm.mmapStart.toNat + 2 ^ 31 =
      hva.toNat + (physEnd physBits).toNat := by
  obtain ⟨low, high⟩ := physEnd_bounds (show 32 ≤ physBits by omega) narrow
  have offset : (hva - mm.mmapStart).toNat = hva.toNat - mm.mmapStart.toNat := by
    rw [BitVec.toNat_sub]
    omega
  rw [hvaToGpa, if_neg (by rw [BitVec.le_def]; omega), if_pos (by rw [BitVec.le_def]; omega),
    if_neg (by rw [BitVec.le_def, offset, gpaMapSize_toNat]; omega), BitVec.toNat_sub,
    BitVec.toNat_sub, BitVec.toNat_add, offset, gpaMapSize_toNat, gpaStackSize_toNat]
  omega

theorem hvaToGpa_stack {hva : VirtAddr} (wide : 36 ≤ physBits) (narrow : physBits ≤ 52)
    (aboveStack : mm.stackStart.toNat ≤ hva.toNat)
    (inside : hva.toNat < mm.stackStart.toNat + 0x10000000) :
    (hvaToGpa physBits mm hva).toNat + mm.stackStart.toNat + 2 ^ 28 =
      hva.toNat + (physEnd physBits).toNat := by
  obtain ⟨low, high⟩ := physEnd_bounds (show 32 ≤ physBits by omega) narrow
  have offset : (hva - mm.stackStart).toNat = hva.toNat - mm.stackStart.toNat := by
    rw [BitVec.toNat_sub]
    omega
  rw [hvaToGpa, if_pos (by rw [BitVec.le_def]; omega),
    if_neg (by rw [BitVec.le_def, offset, gpaStackSize_toNat]; omega), BitVec.toNat_sub,
    BitVec.toNat_add, offset, gpaStackSize_toNat]
  omega

/-- Above the base of a window `hva_to_gpa` never goes back to a region below it. -/
theorem hvaToGpa_above (wide : 36 ≤ physBits) (narrow : physBits ≤ 52) (hva : VirtAddr) :
    (mm.stackStart.toNat ≤ hva.toNat →
      (physEnd physBits).toNat ≤ (hvaToGpa physBits mm hva).toNat + 2 ^ 28) ∧
    (mm.mmapStart.toNat ≤ hva.toNat →
      (physEnd physBits).toNat ≤ (hvaToGpa physBits mm hva).toNat + 2 ^ 31) := by
  obtain ⟨low, high⟩ := physEnd_bounds (show 32 ≤ physBits by omega) narrow
  have invalid : addrInval.toNat = 2 ^ 64 - 1 := by decide
  by_cases inStack : mm.stackStart.toNat ≤ hva.toNat
  · have stack : (physEnd physBits).toNat ≤ (hvaToGpa physBits mm hva).toNat + 2 ^ 28 := by
      by_cases inside : hva.toNat < mm.stackStart.toNat + 0x10000000
      · have value := hvaToGpa_stack wide narrow inStack inside
        omega
      · have offset : (hva - mm.stackStart).toNat = hva.toNat - mm.stackStart.toNat := by
          rw [BitVec.toNat_sub]
          omega
        rw [hvaToGpa, if_pos (by rw [BitVec.le_def]; omega),
          if_pos (by rw [BitVec.le_def, offset, gpaStackSize_toNat]; omega), invalid]
        omega
    exact ⟨fun _ => stack, fun _ => by omega⟩
  · refine ⟨fun above => absurd above inStack, fun inMap => ?_⟩
    by_cases inside : hva.toNat < mm.mmapStart.toNat + 0x70000000
    · have value := hvaToGpa_map wide narrow (by omega) inMap inside
      omega
    · have offset : (hva - mm.mmapStart).toNat = hva.toNat - mm.mmapStart.toNat := by
        rw [BitVec.toNat_sub]
        omega
      rw [hvaToGpa, if_neg (by rw [BitVec.le_def]; omega), if_pos (by rw [BitVec.le_def]; omega),
        if_pos (by rw [BitVec.le_def, offset, gpaMapSize_toNat]; omega), invalid]
      omega

/-- The converse of the round trip, when the windows are apart. -/
theorem hvaToGpa_gpaToHva (wide : 36 ≤ physBits) (narrow : physBits ≤ 52) (usual : UsualLayout mm)
    (windows : WindowsApart physBits mm) (inside : gpa < physEnd physBits) :
    hvaToGpa physBits mm (gpaToHva physBits mm gpa) = gpa := by
  obtain ⟨identityEnd, mapEnd⟩ := windows
  have mmapLow := usual.mmapLow
  have mapStart := usual.mmapStart
  have stackStart := usual.stackStart
  have bound : gpa.toNat < (physEnd physBits).toNat := inside
  rw [gpaStackSize_toNat] at identityEnd mapEnd
  rcases gpaToHva_regions wide narrow usual inside with ⟨identity, same⟩ |
    ⟨low, high, value⟩ | ⟨low, value⟩
  · rw [same]
    exact hvaToGpa_identity wide narrow (by omega) (by omega) identity
  · apply BitVec.eq_of_toNat_eq
    have back : (hvaToGpa physBits mm (gpaToHva physBits mm gpa)).toNat + mm.mmapStart.toNat +
        2 ^ 31 = (gpaToHva physBits mm gpa).toNat + (physEnd physBits).toNat :=
      hvaToGpa_map wide narrow (by omega) (by omega) (by omega)
    omega
  · apply BitVec.eq_of_toNat_eq
    have back : (hvaToGpa physBits mm (gpaToHva physBits mm gpa)).toNat + mm.stackStart.toNat +
        2 ^ 28 = (gpaToHva physBits mm gpa).toNat + (physEnd physBits).toNat :=
      hvaToGpa_stack wide narrow (by omega) (by omega)
    omega

/-- Two windows that overlap, or an identity region that reaches into one, hold an address
that `hva_to_gpa` takes elsewhere. -/
theorem windowsApart_of_back (wide : 36 ≤ physBits) (narrow : physBits ≤ 52)
    (usual : UsualLayout mm)
    (back : ∀ gpa, gpaToHva physBits mm gpa ≠ addrInval →
      hvaToGpa physBits mm (gpaToHva physBits mm gpa) = gpa) : WindowsApart physBits mm := by
  obtain ⟨low, high⟩ := physEnd_bounds (show 32 ≤ physBits by omega) narrow
  have mapBase := mapRegion_toNat (show 32 ≤ physBits by omega) narrow
  have mmapLow := usual.mmapLow
  have mmapHigh := usual.mmapHigh
  have stackLow := usual.stackLow
  have stackHigh := usual.stackHigh
  have mapStart := usual.mmapStart
  have stackStart := usual.stackStart
  have invalid : addrInval.toNat = 2 ^ 64 - 1 := by decide
  have identityEnd : (physEnd physBits).toNat ≤ mm.mmapStart.toNat + 2 ^ 31 := by
    by_contra overlap
    have same : gpaToHva physBits mm mm.mmapStart = mm.mmapStart := by
      rw [gpaToHva, if_pos (by rw [BitVec.lt_def, mapBase]; omega)]
    have valid : gpaToHva physBits mm mm.mmapStart ≠ addrInval := by
      rw [same]
      intro isInvalid
      rw [isInvalid] at mapStart
      omega
    have returned := back mm.mmapStart valid
    rw [same] at returned
    have above : (physEnd physBits).toNat ≤
        (hvaToGpa physBits mm mm.mmapStart).toNat + 2 ^ 31 :=
      (hvaToGpa_above wide narrow _).2 (Nat.le_refl _)
    rw [returned] at above
    omega
  have mapEnd : mm.mmapStart.toNat + 0x70000000 ≤ mm.stackStart.toNat := by
    by_contra overlap
    -- the first address of the mapping window that lies in the stack window too
    obtain ⟨gpa, value⟩ : ∃ gpa : PhysAddr, gpa.toNat = (physEnd physBits).toNat - 2 ^ 31 +
        (mm.stackStart.toNat - mm.mmapStart.toNat) := by
      refine ⟨BitVec.ofNat 64 ((physEnd physBits).toNat - 2 ^ 31 +
        (mm.stackStart.toNat - mm.mmapStart.toNat)), ?_⟩
      rw [BitVec.toNat_ofNat]
      omega
    have inside : gpa < physEnd physBits := by
      rw [BitVec.lt_def]
      omega
    rcases gpaToHva_regions wide narrow usual inside with ⟨identity, _⟩ | ⟨_, inMap, address⟩ |
      ⟨inStack, _⟩
    · omega
    · have valid : gpaToHva physBits mm gpa ≠ addrInval := by
        intro isInvalid
        rw [isInvalid] at address
        omega
      have returned := back gpa valid
      have above : (physEnd physBits).toNat ≤
          (hvaToGpa physBits mm (gpaToHva physBits mm gpa)).toNat + 2 ^ 28 :=
        (hvaToGpa_above wide narrow _).1 (by omega)
      rw [returned] at above
      omega
    · omega
  rw [WindowsApart, gpaStackSize_toNat]
  exact ⟨by omega, by omega⟩

end Layout

variable {ept before after : Ept} {config : EptConfig} {slot : PteRef} {addr : VirtAddr}

theorem Installed.tableFor {gpa : PhysAddr} {level : Nat} {epte : Epte}
    (installed : Installed before after gpa level slot epte) :
    EptTree after ∧ after.tableFor gpa.toNat level = some slot.dir ∧
      after.mem slot.dir slot.index = epte := by
  have inside := Ept.tableFor_inside installed.leads
  have bound : slot.index < nptentries := by
    rw [installed.index]
    exact pdx_lt_nptentries _ _
  refine ⟨installed.stored.tree installed.tree inside bound
    (installed.leaf.shaped installed.small), installed.stored.tableFor installed.tree
    installed.leads, ?_⟩
  rw [installed.stored.mem, RadixTree.setWord, if_pos ⟨rfl, rfl⟩]

/-- The callbacks find the entry of level 0 to which the way of an address leads. -/
theorem eptFind_of_tableFor {gpa table : PhysAddr} (tree : EptTree ept)
    (names : hvaToGpa config.physBits config.mm addr = gpa) (valid : gpa ≠ addrInval)
    (leads : ept.tableFor gpa.toNat 0 = some table) :
    eptFind config addr ept = .ok ⟨table, pdx 0 gpa.toNat⟩ := by
  subst names
  rcases eptFind_cases config addr tree with ⟨ret, _, nowhere⟩ | ⟨other, _, otherLeads, found⟩
  · rw [nowhere valid] at leads
    exact absurd leads (by simp)
  · rw [otherLeads, Option.some.injEq] at leads
    rw [found, leads]

/-- An invalidation that finds a present entry removes what is mapped there. -/
theorem eptInvalidatePage_removes {gpa table : PhysAddr} (tree : EptTree ept)
    (names : hvaToGpa config.physBits config.mm addr = gpa) (valid : gpa ≠ addrInval)
    (leads : ept.tableFor gpa.toNat 0 = some table)
    (present : eptePresent (ept.mem table (pdx 0 gpa.toNat)) = true) :
    (eptInvalidatePage config addr ept).1 = 1 ∧
      (eptInvalidatePage config addr ept).2.leaf gpa.toNat = none := by
  have inside := Ept.tableFor_inside leads
  have bound := pdx_lt_nptentries 0 gpa.toNat
  have nonzero : ept.mem table (pdx 0 gpa.toNat) ≠ epteNone := by
    intro zero
    rw [zero] at present
    exact absurd present (by decide)
  have empties : Emptied ept (eptClearEpte ⟨table, pdx 0 gpa.toNat⟩ ept).2 0
      ⟨table, pdx 0 gpa.toNat⟩ := eptClear_leaf_emptied tree inside bound
  rw [eptInvalidatePage, eptFind_of_tableFor tree names valid leads, clearFound]
  refine ⟨?_, ?_⟩
  · rw [eptClearEpte, if_neg nonzero]
  · rw [empties.stored.leaf_eq tree inside, if_pos ⟨leads, rfl⟩]
    rfl

/-- An invalidation reaches every address that a fault accepts exactly when the identity
region and the two windows are apart. -/
theorem faults_invalidated_iff (wide : 36 ≤ config.physBits) (narrow : config.physBits ≤ 52)
    (usual : UsualLayout config.mm) :
    Invalidates config ↔ WindowsApart config.physBits config.mm := by
  constructor
  · intro reached
    exact windowsApart_of_back wide narrow usual reached.back
  · intro windows
    have back : ∀ gpa, gpaToHva config.physBits config.mm gpa ≠ addrInval →
        hvaToGpa config.physBits config.mm (gpaToHva config.physBits config.mm gpa) = gpa :=
      fun gpa valid => hvaToGpa_gpaToHva wide narrow usual windows
        (gpa_inside (by omega) narrow valid)
    have returns : ∀ gpa, gpaToHva config.physBits config.mm gpa ≠ addrInval →
        hvaToGpa config.physBits config.mm (gpaToHva config.physBits config.mm gpa) ≠ addrInval := by
      intro gpa valid isInvalid
      have inside := gpa_inside (show 32 ≤ config.physBits by omega) narrow valid
      have high := (physEnd_bounds (show 32 ≤ config.physBits by omega) narrow).2
      have isGpa := back gpa valid
      have invalid : addrInval.toNat = 2 ^ 64 - 1 := by decide
      rw [isInvalid] at isGpa
      rw [← isGpa, BitVec.lt_def] at inside
      omega
    refine ⟨back, ?_, ?_, ?_⟩
    · intro gpa other valid otherValid same
      rw [← back gpa valid, same, back other otherValid]
    · intro gpa ept valid
      have accepted := returns gpa valid
      rw [back gpa valid] at accepted
      rw [eptFind, back gpa valid, if_neg accepted]
    · intro makeWrite gpa gup source supply ept faulted valid tree fresh small answers done
      have success : (eptSetEpte config makeWrite gpa gup source supply ept).1 = 0 := by rw [done]
      obtain ⟨before, slot, installed⟩ := eptSetEpte_installed tree fresh answers success
      rw [done, small] at installed
      obtain ⟨faultedTree, leads, entry⟩ := installed.tableFor
      have accepted := returns gpa valid
      have present := installed.leaf.present
      rw [back gpa valid] at accepted
      rw [← entry, installed.index] at present
      have mapped := installed.leaf_eq (show SameBlock 0 gpa gpa from rfl)
      have removed :=
        eptInvalidatePage_removes faultedTree (back gpa valid) accepted leads present
      refine ⟨?_, removed⟩
      intro unmapped
      exact absurd (mapped.symm.trans unmapped) (Option.some_ne_none _)

/-- A process whose mappings end far below its stack. -/
def spacedMm : MmStruct where
  mmapBase := 0x7f0000000000#64
  startStack := 0x7fff12345000#64

/-- A process whose mappings end 128 MB below its stack. -/
def closeMm : MmStruct where
  mmapBase := 0x7ffff0000000#64
  startStack := 0x7ffff8000000#64

theorem spacedMm_usual : UsualLayout spacedMm := by
  have mmap : (lgAlign spacedMm.mmapBase).toNat = 0x7f0000000000 := by decide
  have stack : (lgAlign spacedMm.startStack).toNat = 0x7fff12400000 := by decide
  constructor <;> omega

theorem closeMm_usual : UsualLayout closeMm := by
  have mmap : (lgAlign closeMm.mmapBase).toNat = 0x7ffff0000000 := by decide
  have stack : (lgAlign closeMm.startStack).toNat = 0x7ffff8000000 := by decide
  constructor <;> omega

theorem faults_invalidated_iff_spaced : Invalidates ⟨39, spacedMm, true⟩ := by
  have limit : (physEnd 39).toNat = 0x8000000000 := by decide
  have mmap : (lgAlign spacedMm.mmapBase).toNat = 0x7f0000000000 := by decide
  have stack : (lgAlign spacedMm.startStack).toNat = 0x7fff12400000 := by decide
  have windows : WindowsApart 39 spacedMm := by
    rw [WindowsApart, gpaStackSize_toNat]
    omega
  exact (faults_invalidated_iff (by decide) (by decide) spacedMm_usual).mpr windows

/-- Two guest-physical addresses name the start of the stack window, and the fault on one is
looked up at the other. -/
theorem close_windows_share :
    UsualLayout closeMm ∧ gpaToHva 46 closeMm 0x3fffe8000000#64 = 0x7fffe8000000#64 ∧
      gpaToHva 46 closeMm 0x3ffff0000000#64 = 0x7fffe8000000#64 ∧
      hvaToGpa 46 closeMm 0x7fffe8000000#64 = 0x3ffff0000000#64 ∧
      ¬ Invalidates ⟨46, closeMm, true⟩ := by
  refine ⟨closeMm_usual, by decide, by decide, by decide, ?_⟩
  intro reached
  exact absurd (reached.apart 0x3fffe8000000#64 0x3ffff0000000#64 (by decide) (by decide)
    (by decide)) (by decide)

/-! The accessed bit. -/

/-- The address that the end of `ept_check_page_accessed` passes to
`vmx_ept_sync_individual_addr`. -/
def syncFound (found : Except Int PteRef) (gpa : PhysAddr) (flush : Bool) (ept : Ept) :
    Option PhysAddr :=
  match found with
  | .error _ => none
  | .ok slot =>
      let accessed := ept.mem slot.dir slot.index &&& epteA
      let flushWord : BitVec 64 := if flush then 1#64 else 0#64
      if flushWord &&& accessed ≠ 0 then some gpa else none

def accessedSync (config : EptConfig) (addr : VirtAddr) (flush : Bool) (ept : Ept) :
    Option PhysAddr :=
  syncFound (eptFind config addr ept) (hvaToGpa config.physBits config.mm addr) flush ept

/-- What accesses leave in the entries: they set accessed and dirty bits. -/
def Ept.touch (touches : PhysAddr → Nat → Epte) (ept : Ept) : Ept :=
  { ept with mem := fun dir index =>
      ept.mem dir index ||| (touches dir index &&& (epteA ||| epteD)) }

/-- The work of `clear_flush_young` on the entry of a page, the flush apart: the answer says
whether the page was accessed, the bit is cleared and nothing else, and the page stays young
no longer than until it is accessed again. -/
structure YoungCleared (config : EptConfig) (addr : VirtAddr) (slot : PteRef) (ept : Ept)
    (result : Int × Ept) : Prop where
  answer : result.1 ≠ 0 ↔ ept.mem slot.dir slot.index &&& epteA ≠ 0
  cleared : result.2.mem slot.dir slot.index = ept.mem slot.dir slot.index &&& ~~~ epteA
  others : ∀ dir index, ¬ (dir = slot.dir ∧ index = slot.index) →
    result.2.mem dir index = ept.mem dir index
  old : ∀ touches, touches slot.dir slot.index &&& epteA = 0 →
    (eptMmuNotifierTestYoung config addr (result.2.touch touches)).1 = 0

theorem touched_and (epte touches mask : Epte) (outside : (epteA ||| epteD) &&& mask = 0) :
    (epte ||| (touches &&& (epteA ||| epteD))) &&& mask = epte &&& mask := by
  rw [BitVec.and_or_distrib_right, BitVec.and_assoc, outside]
  simp

theorem touched_clear {epte touches : Epte} (clear : epte &&& epteA = 0)
    (untouched : touches &&& epteA = 0) :
    (epte ||| (touches &&& (epteA ||| epteD))) &&& epteA = 0 := by
  have inside : (epteA ||| epteD) &&& epteA = epteA := by decide
  rw [BitVec.and_or_distrib_right, clear, BitVec.and_assoc, inside, untouched]
  rfl

theorem clear_nothing {epte : Epte} (clear : epte &&& epteA = 0) : epte &&& ~~~ epteA = epte := by
  have all : epteA ||| ~~~ epteA = BitVec.allOnes 64 := by decide
  have split : epte = (epte &&& epteA) ||| (epte &&& ~~~ epteA) := by
    rw [← BitVec.and_or_distrib_left, all, BitVec.and_allOnes]
  rw [clear] at split
  simpa using split.symm

theorem eptLookupFrom_touch (touches : PhysAddr → Nat → Epte) (gpa : PhysAddr) (i : Nat)
    (dir : PhysAddr) (ept : Ept) :
    (eptLookupFrom (fun _ => none) false gpa 0 i dir (ept.touch touches)).1 =
      (eptLookupFrom (fun _ => none) false gpa 0 i dir ept).1 := by
  induction i generalizing dir with
  | zero => rfl
  | succ i ih =>
      have present : eptePresent ((ept.touch touches).mem dir (pdx (i + 1) gpa.toNat)) =
          eptePresent (ept.mem dir (pdx (i + 1) gpa.toNat)) := by
        rw [eptePresent, eptePresent, Ept.touch, touched_and _ _ _ (by decide)]
      have big : epteBig ((ept.touch touches).mem dir (pdx (i + 1) gpa.toNat)) =
          epteBig (ept.mem dir (pdx (i + 1) gpa.toNat)) := by
        rw [epteBig, epteBig, Ept.touch, touched_and _ _ _ (by decide)]
      have table : epteAddr ((ept.touch touches).mem dir (pdx (i + 1) gpa.toNat)) =
          epteAddr (ept.mem dir (pdx (i + 1) gpa.toNat)) := by
        rw [epteAddr, epteAddr, Ept.touch, touched_and _ _ _ (by decide)]
      simp only [eptLookupFrom, eptEnter, present]
      by_cases isPresent : eptePresent (ept.mem dir (pdx (i + 1) gpa.toNat)) = true
      · simp only [isPresent, if_true, big, table]
        split
        · split
          · split <;> rfl
          · exact ih _
        · rfl
      · simp only [isPresent, if_false, Bool.false_eq_true, not_false_eq_true, if_true]
        split <;> rfl

theorem eptFind_touch (touches : PhysAddr → Nat → Epte) (config : EptConfig) (addr : VirtAddr)
    (ept : Ept) : eptFind config addr (ept.touch touches) = eptFind config addr ept := by
  simp only [eptFind, eptLookupGpa]
  rw [eptLookupFrom_touch touches _ 3]
  rfl

/-- The accessed bit as a result: the word 0x100, or 0. -/
theorem accessedFound_answer (slot : PteRef) (flush : Bool) (ept : Ept) :
    (accessedFound (.ok slot) flush ept).1 ≠ 0 ↔ ept.mem slot.dir slot.index &&& epteA ≠ 0 := by
  have answer : (accessedFound (.ok slot) flush ept).1 =
      ((ept.mem slot.dir slot.index &&& epteA).toNat : Int) := rfl
  rw [answer]
  generalize ept.mem slot.dir slot.index &&& epteA = accessed
  refine not_congr ⟨fun none => ?_, fun none => ?_⟩
  · apply BitVec.eq_of_toNat_eq
    simpa using none
  · simp [none]

/-- `flush & accessed` joins 1 with 0x100, so no address is ever flushed. -/
theorem syncFound_none (found : Except Int PteRef) (gpa : PhysAddr) (flush : Bool) (ept : Ept) :
    syncFound found gpa flush ept = none := by
  rcases found with ret | slot
  · rfl
  · simp only [syncFound, flushWord_apart, ne_eq, not_true_eq_false, if_false]

theorem testYoung_old (enabled : config.adEnabled = true) (found : eptFind config addr ept = .ok slot)
    (clear : ept.mem slot.dir slot.index &&& epteA = 0) :
    (eptMmuNotifierTestYoung config addr ept).1 = 0 := by
  rw [eptMmuNotifierTestYoung, if_neg (by simp [enabled]), eptCheckPageAccessed, found]
  by_contra young
  exact (accessedFound_answer slot false ept).mp young clear

/-- The callback never flushes. The rest of its work, with the flush asked for only when the
page was accessed, is done exactly when there is nothing to clear. -/
theorem clear_flush_young_iff (enabled : config.adEnabled = true)
    (found : eptFind config addr ept = .ok slot) :
    ¬ (YoungCleared config addr slot ept (eptMmuNotifierClearFlushYoung config addr ept) ∧
        accessedSync config addr true ept = some (hvaToGpa config.physBits config.mm addr)) ∧
    ((YoungCleared config addr slot ept (eptMmuNotifierClearFlushYoung config addr ept) ∧
        (ept.mem slot.dir slot.index &&& epteA ≠ 0 →
          accessedSync config addr true ept = some (hvaToGpa config.physBits config.mm addr))) ↔
      ept.mem slot.dir slot.index &&& epteA = 0) := by
  have result : eptMmuNotifierClearFlushYoung config addr ept =
      accessedFound (.ok slot) true ept := by
    rw [eptMmuNotifierClearFlushYoung, if_neg (by simp [enabled]), eptCheckPageAccessed, found]
  have same : (accessedFound (.ok slot) true ept).2 = ept := accessedFound_state _ _ _
  rw [accessedSync, syncFound_none, result]
  refine ⟨fun flushed => absurd flushed.2 (by simp), ?_, ?_⟩
  · rintro ⟨_, flushes⟩
    by_contra accessed
    exact absurd (flushes accessed) (by simp)
  · intro clear
    refine ⟨⟨accessedFound_answer slot true ept, ?_, ?_, ?_⟩, fun accessed => absurd clear accessed⟩
    · rw [same]
      exact (clear_nothing clear).symm
    · intro dir index _
      rw [same]
    · intro touches untouched
      rw [same]
      exact testYoung_old enabled (by rw [eptFind_touch, found]) (touched_clear clear untouched)

/-- The EPT of the first 4 KB page, with its tables. -/
def youngEpt : Ept :=
  (vmxDoEptFault usualEpt 0x400000#64 0#32
    (some ⟨⟨0x5000#64, by decide⟩, ⟨0x5000#64, by decide⟩, 0⟩) .noVma threeTables firstEpt).2

theorem youngEpt_found : eptFind usualEpt 0x400000#64 youngEpt = .ok ⟨0x4000#64, 0⟩ := by rfl

/-- The same EPT with the accessed bit clear. -/
def oldEpt : Ept := youngEpt.setEpte ⟨0x4000#64, 0⟩ (youngEpt.mem 0x4000#64 0 &&& ~~~ epteA)

theorem clear_flush_young_iff_old :
    YoungCleared usualEpt 0x400000#64 ⟨0x4000#64, 0⟩ oldEpt
      (eptMmuNotifierClearFlushYoung usualEpt 0x400000#64 oldEpt) := by
  have found : eptFind usualEpt 0x400000#64 oldEpt = .ok ⟨0x4000#64, 0⟩ := by rfl
  exact ((clear_flush_young_iff rfl found).2.mpr (by decide)).1

/-- The page that was just faulted in is young, and is young after its bit was to be cleared. -/
theorem young_bit_stays :
    youngEpt.mem 0x4000#64 0 &&& epteA = epteA ∧
      (eptMmuNotifierClearFlushYoung usualEpt 0x400000#64 youngEpt).2.mem 0x4000#64 0 &&& epteA =
        epteA ∧
      accessedSync usualEpt 0x400000#64 true youngEpt = none ∧
      ¬ YoungCleared usualEpt 0x400000#64 ⟨0x4000#64, 0⟩ youngEpt
        (eptMmuNotifierClearFlushYoung usualEpt 0x400000#64 youngEpt) := by
  have young : youngEpt.mem 0x4000#64 0 &&& epteA = epteA := by decide
  have result : eptMmuNotifierClearFlushYoung usualEpt 0x400000#64 youngEpt =
      accessedFound (.ok ⟨0x4000#64, 0⟩) true youngEpt := by
    rw [← youngEpt_found]
    rfl
  have same : (eptMmuNotifierClearFlushYoung usualEpt 0x400000#64 youngEpt).2 = youngEpt := by
    rw [result, accessedFound_state]
  refine ⟨young, by rw [same, young], syncFound_none _ _ _ _, ?_⟩
  intro done
  have cleared := done.cleared
  rw [same] at cleared
  exact absurd cleared (by decide)

/-! The test for a mapped page. -/

/-- The table of level 0 on the way of an address is there, and its entry is not present. -/
def EmptyLeaf (ept : Ept) (gpa : Nat) : Prop :=
  (ept.walk gpa).1 = 0 ∧ eptePresent (ept.walk gpa).2 = false

/-- The address is mapped by an entry of 2 MB or 1 GB. -/
def HugeLeaf (ept : Ept) (gpa : Nat) : Prop :=
  (ept.walk gpa).1 ≠ 0 ∧ eptePresent (ept.walk gpa).2 = true

theorem Ept.leaf_isSome (ept : Ept) (gpa : Nat) :
    (ept.leaf gpa).isSome = true ↔ eptePresent (ept.walk gpa).2 = true := by
  rw [Ept.leaf]
  split
  · rename_i present
    simp [present]
  · rename_i absent
    simp [absent]

theorem Ept.walk_of_leaf {gpa : Nat} {leaf : Nat × Epte} (mapped : ept.leaf gpa = some leaf) :
    ept.walk gpa = leaf := by
  rw [Ept.leaf] at mapped
  split at mapped
  · exact Option.some.inj mapped
  · simp at mapped

/-- The test asks for the table of level 0 alone. -/
theorem eptCheckPageMapped_iff (tree : EptTree ept)
    (valid : hvaToGpa config.physBits config.mm addr ≠ addrInval) :
    eptCheckPageMapped config addr ept = 1 ↔
      (ept.walk (hvaToGpa config.physBits config.mm addr).toNat).1 = 0 := by
  rw [Ept.walk, RadixTree.leafAt_lowest, eptCheckPageMapped]
  rcases eptFind_cases config addr tree with ⟨ret, failed, nowhere⟩ | ⟨table, _, leads, found⟩
  · have none := nowhere valid
    rw [Ept.tableFor] at none
    rw [failed, none]
    simp [mappedFound]
  · rw [Ept.tableFor] at leads
    rw [found, leads]
    simp [mappedFound]

theorem check_after_invalidate (tree : EptTree ept)
    (valid : hvaToGpa config.physBits config.mm addr ≠ addrInval)
    (removed : (eptInvalidatePage config addr ept).1 = 1) :
    eptCheckPageMapped config addr (eptInvalidatePage config addr ept).2 = 1 := by
  rcases eptFind_cases config addr tree with ⟨ret, failed, _⟩ | ⟨table, _, leads, found⟩
  · rw [eptInvalidatePage, failed] at removed
    exact absurd (show (0 : Int) = 1 from removed) (by decide)
  · have inside := Ept.tableFor_inside leads
    have bound := pdx_lt_nptentries 0 (hvaToGpa config.physBits config.mm addr).toNat
    have empties : Emptied ept (eptClearEpte
        ⟨table, pdx 0 (hvaToGpa config.physBits config.mm addr).toNat⟩ ept).2 0
        ⟨table, pdx 0 (hvaToGpa config.physBits config.mm addr).toNat⟩ :=
      eptClear_leaf_emptied tree inside bound
    have later := eptFind_of_tableFor (empties.tree tree inside bound) rfl valid
      (empties.stored.tableFor tree leads)
    rw [eptInvalidatePage, found, clearFound, eptCheckPageMapped, later]
    rfl

theorem check_after_fault {makeWrite : Bool} {gup : Option GupPage} {source : PfnSource}
    {supply : Supply} {faulted : Ept} (tree : EptTree ept)
    (valid : hvaToGpa config.physBits config.mm addr ≠ addrInval) (fresh : Fresh ept supply)
    (answers : gup = none → source ≠ .unfollowed 0)
    (done : eptSetEpte config makeWrite (hvaToGpa config.physBits config.mm addr) gup source supply
      ept = (0, faulted)) :
    eptCheckPageMapped config addr faulted = 1 ↔ faultLevel gup = 0 := by
  have success : (eptSetEpte config makeWrite (hvaToGpa config.physBits config.mm addr) gup source
      supply ept).1 = 0 := by rw [done]
  obtain ⟨before, slot, installed⟩ := eptSetEpte_installed tree fresh answers success
  rw [done] at installed
  have mapped := installed.leaf_eq
    (show SameBlock (faultLevel gup) (hvaToGpa config.physBits config.mm addr) _ from rfl)
  rw [eptCheckPageMapped_iff installed.tableFor.1 valid, Ept.walk_of_leaf mapped]

/-- In every run the test is right but for an empty entry of a table of level 0 and for pages
of 2 MB and 1 GB. So it is wrong after every invalidation that removed a page, and after a
fault it is right for pages of 4 KB only. -/
theorem check_page_mapped_iff (mem : PhysAddr → Nat → Epte) (page : Option PageFrame) {start : Ept}
    (init : vmxInitEpt mem page = .ok start)
    (run : Machine.Reaches (eptStep config) eptGuard start ept)
    (valid : hvaToGpa config.physBits config.mm addr ≠ addrInval) :
    ((eptCheckPageMapped config addr ept = 1 ↔
        (ept.leaf (hvaToGpa config.physBits config.mm addr).toNat).isSome = true) ↔
      ¬ EmptyLeaf ept (hvaToGpa config.physBits config.mm addr).toNat ∧
        ¬ HugeLeaf ept (hvaToGpa config.physBits config.mm addr).toNat) ∧
    ((eptInvalidatePage config addr ept).1 = 1 →
      eptCheckPageMapped config addr (eptInvalidatePage config addr ept).2 = 1) ∧
    (∀ makeWrite gup source supply faulted, Fresh ept supply →
      (gup = none → source ≠ .unfollowed 0) →
      eptSetEpte config makeWrite (hvaToGpa config.physBits config.mm addr) gup source supply ept =
        (0, faulted) →
      (eptCheckPageMapped config addr faulted = 1 ↔ faultLevel gup = 0)) := by
  have tree := (reaches_balanced init run).1
  refine ⟨?_, check_after_invalidate tree valid, ?_⟩
  · rw [eptCheckPageMapped_iff tree valid, Ept.leaf_isSome, EmptyLeaf, HugeLeaf]
    by_cases lowest : (ept.walk (hvaToGpa config.physBits config.mm addr).toNat).1 = 0
    · simp [lowest]
    · simp [lowest]
  · intro makeWrite gup source supply faulted fresh answers done
    exact check_after_fault tree valid fresh answers done

theorem check_page_mapped_iff_huge :
    eptCheckPageMapped usualEpt 0x200000#64 hugeEpt = 0 ∧
      (hugeEpt.leaf 0x200000).isSome = true ∧
      ¬ (¬ EmptyLeaf hugeEpt 0x200000 ∧ ¬ HugeLeaf hugeEpt 0x200000) := by
  have right := (check_page_mapped_iff (fun _ _ => 0) (some ⟨0x1000#64, by decide⟩)
    (show vmxInitEpt (fun _ _ => 0) (some ⟨0x1000#64, by decide⟩) = .ok firstEpt from rfl)
    hugeEpt_reached (show hvaToGpa usualEpt.physBits usualEpt.mm 0x200000#64 ≠ addrInval by decide)).1
  have wrong : eptCheckPageMapped usualEpt 0x200000#64 hugeEpt = 0 := by decide +kernel
  have mapped : (hugeEpt.leaf 0x200000).isSome = true := by decide +kernel
  refine ⟨wrong, mapped, ?_⟩
  intro condition
  have one := (right.mpr condition).mpr mapped
  rw [wrong] at one
  exact absurd one (by decide)

/-- A page that was faulted in and invalidated is not mapped and still passes the test. -/
theorem check_after_removal_wrong :
    Machine.Reaches (eptStep usualEpt) eptGuard firstEpt
        (eptInvalidatePage usualEpt 0x400000#64 youngEpt).2 ∧
      (eptInvalidatePage usualEpt 0x400000#64 youngEpt).1 = 1 ∧
      ((eptInvalidatePage usualEpt 0x400000#64 youngEpt).2.leaf 0x400000).isSome = false ∧
      eptCheckPageMapped usualEpt 0x400000#64
        (eptInvalidatePage usualEpt 0x400000#64 youngEpt).2 = 1 := by
  have faulted : Machine.Reaches (eptStep usualEpt) eptGuard firstEpt youngEpt :=
    .tail .refl (show eptGuard firstEpt (.fault 0x400000#64 0#32 _ .noVma threeTables) from
      threeTables_fresh) rfl
  refine ⟨.tail faulted (show eptGuard youngEpt (.invalidatePage 0x400000#64) from trivial) rfl,
    by decide +kernel, by decide +kernel, by decide +kernel⟩

end RdmaPaging
