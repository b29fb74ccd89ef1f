import RdmaPaging.VmPages

/-!
The guest-physical addresses of a Dune process. The kernel module translates between them
and the addresses of the process in `hva_to_gpa` and `gpa_to_hva`; libdune computes them
in `dune_va_to_pa` from the layout that the kernel module reports.
-/

namespace RdmaPaging

abbrev VirtAddr := BitVec 64

def gpaStackSize : PhysAddr := 0x10000000#64

def gpaMapSize : PhysAddr := 0x80000000#64 - gpaStackSize

def lgAlign (addr : VirtAddr) : VirtAddr :=
  (addr + 0x200000#64 - 1#64) &&& ~~~ (0x200000#64 - 1#64)

/-- The fields of `struct mm_struct` that fix the layout. -/
structure MmStruct where
  mmapBase : VirtAddr
  startStack : VirtAddr

/-- `1ULL << boot_cpu_data.x86_phys_bits`. -/
def physEnd (physBits : Nat) : PhysAddr := 1#64 <<< physBits

def addrInval : BitVec 64 := 0xffffffffffffffff#64

def MmStruct.mmapStart (mm : MmStruct) : VirtAddr := lgAlign mm.mmapBase - gpaMapSize

def MmStruct.stackStart (mm : MmStruct) : VirtAddr := lgAlign mm.startStack - gpaStackSize

def hvaToGpa (physBits : Nat) (mm : MmStruct) (hva : VirtAddr) : PhysAddr :=
  if mm.stackStart ≤ hva then
    if gpaStackSize ≤ hva - mm.stackStart then addrInval
    else hva - mm.stackStart + physEnd physBits - gpaStackSize
  else if mm.mmapStart ≤ hva then
    if gpaMapSize ≤ hva - mm.mmapStart then addrInval
    else hva - mm.mmapStart + physEnd physBits - gpaStackSize - gpaMapSize
  else if physEnd physBits - gpaStackSize - gpaMapSize ≤ hva then addrInval
  else hva

def gpaToHva (physBits : Nat) (mm : MmStruct) (gpa : PhysAddr) : VirtAddr :=
  if gpa < physEnd physBits - gpaStackSize - gpaMapSize then gpa
  else if gpa < physEnd physBits - gpaStackSize then
    gpa - (physEnd physBits - gpaStackSize - gpaMapSize) + lgAlign mm.mmapBase - gpaMapSize
  else if gpa < physEnd physBits then
    gpa - (physEnd physBits - gpaStackSize) + lgAlign mm.startStack - gpaStackSize
  else addrInval

/-- The guest-physical layout that the kernel module reports. -/
structure DuneLayout where
  physLimit : PhysAddr
  mmapBase : VirtAddr
  stackBase : VirtAddr

/-- The answer to `DUNE_GET_LAYOUT`. -/
def getLayout (physBits : Nat) (mm : MmStruct) : DuneLayout where
  physLimit := physEnd physBits
  mmapBase := lgAlign mm.mmapBase - gpaMapSize
  stackBase := lgAlign mm.startStack - gpaStackSize

def duneMmapAddrToPa (layout : DuneLayout) (ptr : VirtAddr) : PhysAddr :=
  ptr - layout.mmapBase + layout.physLimit - gpaStackSize - gpaMapSize

def duneStackAddrToPa (layout : DuneLayout) (ptr : VirtAddr) : PhysAddr :=
  ptr - layout.stackBase + layout.physLimit - gpaStackSize

def duneVaToPa (layout : DuneLayout) (ptr : VirtAddr) : PhysAddr :=
  if layout.stackBase ≤ ptr then duneStackAddrToPa layout ptr
  else if layout.mmapBase ≤ ptr then duneMmapAddrToPa layout ptr
  else ptr

theorem physEnd_toNat {physBits : Nat} (narrow : physBits ≤ 52) :
    (physEnd physBits).toNat = 2 ^ physBits := by
  have fits : 2 ^ physBits < 2 ^ 64 := Nat.pow_lt_pow_right (by decide) (by omega)
  rw [physEnd, BitVec.toNat_shiftLeft, Nat.shiftLeft_eq]
  have one : (1#64).toNat = 1 := rfl
  rw [one, Nat.one_mul]
  exact Nat.mod_eq_of_lt fits

/-- The three regions of the guest-physical space lie side by side below its end. -/
theorem physEnd_bounds {physBits : Nat} (wide : 32 ≤ physBits) (narrow : physBits ≤ 52) :
    2 ^ 32 ≤ (physEnd physBits).toNat ∧ (physEnd physBits).toNat ≤ 2 ^ 52 := by
  rw [physEnd_toNat narrow]
  exact ⟨Nat.pow_le_pow_right (by decide) wide, Nat.pow_le_pow_right (by decide) narrow⟩

section Regions

variable {physBits : Nat} {mm : MmStruct} {hva : VirtAddr}

/-- A valid address lies in the stack region, in the mapping region or below both. -/
theorem hvaToGpa_cases (valid : hvaToGpa physBits mm hva ≠ addrInval) :
    (mm.stackStart ≤ hva ∧ hva - mm.stackStart < gpaStackSize ∧
      hvaToGpa physBits mm hva = hva - mm.stackStart + physEnd physBits - gpaStackSize) ∨
    (¬ mm.stackStart ≤ hva ∧ mm.mmapStart ≤ hva ∧ hva - mm.mmapStart < gpaMapSize ∧
      hvaToGpa physBits mm hva =
        hva - mm.mmapStart + physEnd physBits - gpaStackSize - gpaMapSize) ∨
    (¬ mm.stackStart ≤ hva ∧ ¬ mm.mmapStart ≤ hva ∧
      hva < physEnd physBits - gpaStackSize - gpaMapSize ∧ hvaToGpa physBits mm hva = hva) := by
  unfold hvaToGpa at valid ⊢
  by_cases inStack : mm.stackStart ≤ hva
  · rw [if_pos inStack] at valid ⊢
    by_cases outside : gpaStackSize ≤ hva - mm.stackStart
    · rw [if_pos outside] at valid
      exact absurd rfl valid
    · rw [if_neg outside]
      exact Or.inl ⟨inStack, BitVec.not_le.mp outside, rfl⟩
  · rw [if_neg inStack] at valid ⊢
    by_cases inMap : mm.mmapStart ≤ hva
    · rw [if_pos inMap] at valid ⊢
      by_cases outside : gpaMapSize ≤ hva - mm.mmapStart
      · rw [if_pos outside] at valid
        exact absurd rfl valid
      · rw [if_neg outside]
        exact Or.inr (Or.inl ⟨inStack, inMap, BitVec.not_le.mp outside, rfl⟩)
    · rw [if_neg inMap] at valid ⊢
      by_cases outside : physEnd physBits - gpaStackSize - gpaMapSize ≤ hva
      · rw [if_pos outside] at valid
        exact absurd rfl valid
      · rw [if_neg outside]
        exact Or.inr (Or.inr ⟨inStack, inMap, BitVec.not_le.mp outside, rfl⟩)

theorem duneVaToPa_eq_hvaToGpa (valid : hvaToGpa physBits mm hva ≠ addrInval) :
    duneVaToPa (getLayout physBits mm) hva = hvaToGpa physBits mm hva := by
  have mapBase : (getLayout physBits mm).mmapBase = mm.mmapStart := rfl
  have stackBase : (getLayout physBits mm).stackBase = mm.stackStart := rfl
  rcases hvaToGpa_cases valid with ⟨inStack, _, gpa⟩ | ⟨notStack, inMap, _, gpa⟩ |
    ⟨notStack, notMap, _, gpa⟩
  · rw [gpa, duneVaToPa, stackBase, if_pos inStack]
    rfl
  · rw [gpa, duneVaToPa, stackBase, mapBase, if_neg notStack, if_pos inMap]
    rfl
  · rw [gpa, duneVaToPa, stackBase, mapBase, if_neg notStack, if_neg notMap]

/-- An offset into a region of `size` bytes that ends at `limit`. -/
theorem regionOffset_toNat {offset limit size : BitVec 64} (inside : offset < size)
    (fits : size ≤ limit) (high : limit.toNat ≤ 2 ^ 52) :
    (offset + limit - size).toNat = limit.toNat - size.toNat + offset.toNat := by
  rw [BitVec.lt_def] at inside
  rw [BitVec.le_def] at fits
  rw [BitVec.toNat_sub, BitVec.toNat_add]
  omega

theorem stackRegion_toNat (wide : 32 ≤ physBits) (narrow : physBits ≤ 52) :
    (physEnd physBits - gpaStackSize).toNat = (physEnd physBits).toNat - 2 ^ 28 := by
  obtain ⟨low, high⟩ := physEnd_bounds wide narrow
  rw [BitVec.toNat_sub, gpaStackSize, BitVec.toNat_ofNat]
  omega

theorem mapRegion_toNat (wide : 32 ≤ physBits) (narrow : physBits ≤ 52) :
    (physEnd physBits - gpaStackSize - gpaMapSize).toNat = (physEnd physBits).toNat - 2 ^ 31 := by
  obtain ⟨low, high⟩ := physEnd_bounds wide narrow
  have size : gpaMapSize.toNat = 2 ^ 31 - 2 ^ 28 := by decide
  rw [BitVec.toNat_sub, stackRegion_toNat wide narrow, size]
  omega

theorem gpaToHva_hvaToGpa (wide : 32 ≤ physBits) (narrow : physBits ≤ 52)
    (valid : hvaToGpa physBits mm hva ≠ addrInval) :
    gpaToHva physBits mm (hvaToGpa physBits mm hva) = hva := by
  obtain ⟨low, high⟩ := physEnd_bounds wide narrow
  have stackBase := stackRegion_toNat wide narrow
  have mapBase := mapRegion_toNat wide narrow
  have stackSize : gpaStackSize.toNat = 2 ^ 28 := by decide
  have mapSize : gpaMapSize.toNat = 2 ^ 31 - 2 ^ 28 := by decide
  rcases hvaToGpa_cases valid with ⟨_, inside, gpa⟩ | ⟨_, _, inside, gpa⟩ | ⟨_, _, inside, gpa⟩
  · have value : (hvaToGpa physBits mm hva).toNat =
        (physEnd physBits).toNat - 2 ^ 28 + (hva - mm.stackStart).toNat := by
      rw [gpa, regionOffset_toNat inside (by rw [BitVec.le_def]; omega) high, stackSize]
    rw [BitVec.lt_def] at inside
    unfold gpaToHva
    rw [if_neg (by rw [BitVec.lt_def]; omega), if_neg (by rw [BitVec.lt_def]; omega),
      if_pos (by rw [BitVec.lt_def]; omega), gpa, MmStruct.stackStart]
    grind
  · have value : (hvaToGpa physBits mm hva).toNat =
        (physEnd physBits).toNat - 2 ^ 31 + (hva - mm.mmapStart).toNat := by
      have below : hva - mm.mmapStart < gpaMapSize + gpaStackSize := by
        rw [BitVec.lt_def] at inside ⊢
        rw [BitVec.toNat_add]
        omega
      have sizes : (gpaMapSize + gpaStackSize).toNat = 2 ^ 31 := by decide
      have regrouped : hva - mm.mmapStart + physEnd physBits - gpaStackSize - gpaMapSize =
          hva - mm.mmapStart + physEnd physBits - (gpaMapSize + gpaStackSize) := by grind
      rw [gpa, regrouped, regionOffset_toNat below (by rw [BitVec.le_def]; omega) high, sizes]
    rw [BitVec.lt_def] at inside
    unfold gpaToHva
    rw [if_neg (by rw [BitVec.lt_def]; omega), if_pos (by rw [BitVec.lt_def]; omega), gpa,
      MmStruct.mmapStart]
    grind
  · rw [gpa, gpaToHva, if_pos inside]

/-! Pages. The regions start and end at page boundaries. -/

theorem lgAlign_huge (addr : VirtAddr) : (lgAlign addr).toNat % 2 ^ 21 = 0 := by
  have masked : lgAlign addr &&& 0x1fffff#64 = 0#64 := by
    rw [lgAlign, BitVec.and_assoc]
    have disjoint : ~~~ (0x200000#64 - 1#64) &&& 0x1fffff#64 = 0#64 := by decide
    rw [disjoint, BitVec.and_zero]
  have value := congrArg BitVec.toNat masked
  rw [BitVec.toNat_and] at value
  have low : (lgAlign addr).toNat &&& (2 ^ 21 - 1) = 0 := value
  rwa [Nat.and_two_pow_sub_one_eq_mod] at low

theorem lgAlign_aligned (addr : VirtAddr) : (lgAlign addr).toNat % 4096 = 0 := by
  have huge := lgAlign_huge addr
  omega

theorem sub_aligned {left right : BitVec 64} (leftAligned : left.toNat % 4096 = 0)
    (rightAligned : right.toNat % 4096 = 0) : (left - right).toNat % 4096 = 0 := by
  rw [BitVec.toNat_sub]
  omega

theorem add_aligned {left right : BitVec 64} (leftAligned : left.toNat % 4096 = 0)
    (rightAligned : right.toNat % 4096 = 0) : (left + right).toNat % 4096 = 0 := by
  rw [BitVec.toNat_add]
  omega

theorem hvaToGpa_aligned (wide : 32 ≤ physBits) (narrow : physBits ≤ 52)
    (valid : hvaToGpa physBits mm hva ≠ addrInval) (aligned : hva.toNat % 4096 = 0) :
    (hvaToGpa physBits mm hva).toNat % 4096 = 0 := by
  have limit : (physEnd physBits).toNat % 4096 = 0 := by
    rw [physEnd_toNat narrow]
    exact Nat.mod_eq_zero_of_dvd (Nat.pow_dvd_pow 2 (show 12 ≤ physBits by omega))
  have stackStart : mm.stackStart.toNat % 4096 = 0 :=
    sub_aligned (lgAlign_aligned _) (by decide)
  have mmapStart : mm.mmapStart.toNat % 4096 = 0 :=
    sub_aligned (lgAlign_aligned _) (by decide)
  rcases hvaToGpa_cases valid with ⟨_, _, gpa⟩ | ⟨_, _, _, gpa⟩ | ⟨_, _, _, gpa⟩
  · rw [gpa]
    exact sub_aligned (add_aligned (sub_aligned aligned stackStart) limit) (by decide)
  · rw [gpa]
    exact sub_aligned (sub_aligned (add_aligned (sub_aligned aligned mmapStart) limit) (by decide))
      (by decide)
  · rw [gpa]
    exact aligned

theorem hvaToGpa_lt (wide : 32 ≤ physBits) (narrow : physBits ≤ 52)
    (valid : hvaToGpa physBits mm hva ≠ addrInval) :
    (hvaToGpa physBits mm hva).toNat < (physEnd physBits).toNat := by
  obtain ⟨low, high⟩ := physEnd_bounds wide narrow
  have mapBase := mapRegion_toNat wide narrow
  have stackSize : gpaStackSize.toNat = 2 ^ 28 := by decide
  have mapSize : gpaMapSize.toNat = 2 ^ 31 - 2 ^ 28 := by decide
  rcases hvaToGpa_cases valid with ⟨_, inside, gpa⟩ | ⟨_, _, inside, gpa⟩ | ⟨_, _, inside, gpa⟩
  · rw [gpa]
    rw [BitVec.lt_def] at inside
    rw [BitVec.toNat_sub, BitVec.toNat_add]
    omega
  · rw [gpa]
    rw [BitVec.lt_def] at inside
    rw [BitVec.toNat_sub, BitVec.toNat_sub, BitVec.toNat_add]
    omega
  · rw [gpa]
    rw [BitVec.lt_def] at inside
    omega

/-- Within a page `gpa_to_hva` keeps offsets. -/
theorem gpaToHva_offset (wide : 32 ≤ physBits) (narrow : physBits ≤ 52) {gpa offset : PhysAddr}
    (aligned : gpa.toNat % 4096 = 0) (inPage : offset.toNat < 4096)
    (inside : gpa.toNat < (physEnd physBits).toNat) :
    gpaToHva physBits mm (gpa + offset) = gpaToHva physBits mm gpa + offset := by
  obtain ⟨low, high⟩ := physEnd_bounds wide narrow
  have stackBase := stackRegion_toNat wide narrow
  have mapBase := mapRegion_toNat wide narrow
  have limit : (physEnd physBits).toNat % 4096 = 0 := by
    rw [physEnd_toNat narrow]
    exact Nat.mod_eq_zero_of_dvd (Nat.pow_dvd_pow 2 (show 12 ≤ physBits by omega))
  have sum : (gpa + offset).toNat = gpa.toNat + offset.toNat := by
    rw [BitVec.toNat_add]
    omega
  have sameSide : ∀ bound : PhysAddr, bound.toNat % 4096 = 0 →
      (gpa + offset < bound ↔ gpa < bound) := by
    intro bound boundAligned
    rw [BitVec.lt_def, BitVec.lt_def, sum]
    omega
  simp only [gpaToHva]
  rw [if_congr (sameSide _ (by rw [mapBase]; omega)) rfl rfl,
    if_congr (sameSide (physEnd physBits - gpaStackSize) (by rw [stackBase]; omega)) rfl rfl,
    if_congr (sameSide _ limit) rfl rfl]
  by_cases below : gpa < physEnd physBits - gpaStackSize - gpaMapSize
  · rw [if_pos below, if_pos below]
  · rw [if_neg below, if_neg below]
    by_cases inMap : gpa < physEnd physBits - gpaStackSize
    · rw [if_pos inMap, if_pos inMap]
      grind
    · have inStack : gpa < physEnd physBits := inside
      rw [if_neg inMap, if_neg inMap, if_pos inStack, if_pos inStack]
      grind

end Regions

/-- The byte that the guest finds at `va` through a 4 KB leaf entry below the entries
`above`. The EPT backs a guest-physical address by the process's memory at `gpa_to_hva`. -/
def guestByte (physBits : Nat) (mm : MmStruct) (host : VirtAddr → UInt8) (above : List Ptent)
    (leaf : Ptent) (va : VirtAddr) : UInt8 :=
  host (gpaToHva physBits mm (leafTranslation above leaf pgshift va.toNat).pa)

theorem pteAddr_of_aligned {pa : PhysAddr} (aligned : pa.toNat % 4096 = 0)
    (small : pa.toNat < 2 ^ 52) : pteAddr pa = pa := by
  apply BitVec.eq_of_toNat_eq
  rw [pteAddr_toNat]
  omega

theorem leafTranslation_page {pa : PhysAddr} (aligned : pa.toNat % 4096 = 0)
    (small : pa.toNat < 2 ^ 52) (above : List Ptent) (perm : Perm) (va : Nat) :
    (leafTranslation above (pteAddr pa ||| getPtePerm perm) pgshift va).pa =
      pa + BitVec.ofNat 64 (va % 4096) := by
  have shifted : (pa >>> pgshift) <<< pgshift = pa := by
    apply BitVec.eq_of_toNat_eq
    rw [BitVec.toNat_shiftLeft, BitVec.toNat_ushiftRight, Nat.shiftLeft_eq,
      Nat.shiftRight_eq_div_pow, pgshift]
    omega
  have address : pteAddr (pteAddr pa ||| getPtePerm perm) = pa := by
    rw [pteAddr_or pa (getPtePerm perm) (pteAddr_getPtePerm perm),
      pteAddr_of_aligned aligned small]
  rw [leafTranslation, address, shifted]
  rfl

/-- libdune and the kernel module agree on the address of every page that the kernel module
accepts, so a page that libdune maps is the process's own page at the same address. -/
theorem library_kernel_addresses_agree {physBits : Nat} (wide : 32 ≤ physBits)
    (narrow : physBits ≤ 52) (mm : MmStruct) :
    (∀ va, hvaToGpa physBits mm va ≠ addrInval →
      duneVaToPa (getLayout physBits mm) va = hvaToGpa physBits mm va ∧
        gpaToHva physBits mm (duneVaToPa (getLayout physBits mm) va) = va) ∧
    (∀ va other, hvaToGpa physBits mm va ≠ addrInval → hvaToGpa physBits mm other ≠ addrInval →
      hvaToGpa physBits mm va = hvaToGpa physBits mm other → va = other) ∧
    (∀ (host : VirtAddr → UInt8) (above : List Ptent) (perm : Perm) (slot : PteRef) (vm : Vm)
      (page va : VirtAddr), hvaToGpa physBits mm page ≠ addrInval → page.toNat % 4096 = 0 →
      va.toNat / 4096 = page.toNat / 4096 →
      let mapped := (mapPhysHelper (getPtePerm perm) page.toNat
        (duneVaToPa (getLayout physBits mm) page) slot page.toNat vm).2
      guestByte physBits mm host above (mapped.mem slot.dir slot.index) va = host va) := by
  refine ⟨fun va valid => ?_, fun va other valid otherValid same => ?_, ?_⟩
  · have agree := duneVaToPa_eq_hvaToGpa valid
    refine ⟨agree, ?_⟩
    rw [agree]
    exact gpaToHva_hvaToGpa wide narrow valid
  · rw [← gpaToHva_hvaToGpa wide narrow valid, same]
    exact gpaToHva_hvaToGpa wide narrow otherValid
  · intro host above perm slot vm page va valid aligned samePage mapped
    have gpaAligned := hvaToGpa_aligned wide narrow valid aligned
    have gpaInside := hvaToGpa_lt wide narrow valid
    have high := (physEnd_bounds wide narrow).2
    have entry : mapped.mem slot.dir slot.index =
        pteAddr (hvaToGpa physBits mm page) ||| getPtePerm perm := by
      have first : BitVec.ofNat 64 page.toNat - BitVec.ofNat 64 page.toNat +
          hvaToGpa physBits mm page = hvaToGpa physBits mm page := by simp
      simp only [mapped, mapPhysHelper, Vm.setPte, and_self, if_true,
        duneVaToPa_eq_hvaToGpa valid, first]
    have offset : va = page + BitVec.ofNat 64 (va.toNat % 4096) := by
      apply BitVec.eq_of_toNat_eq
      rw [BitVec.toNat_add, BitVec.toNat_ofNat]
      omega
    rw [entry, guestByte, leafTranslation_page gpaAligned (by omega), gpaToHva_offset wide narrow
      gpaAligned (by rw [BitVec.toNat_ofNat]; omega) gpaInside,
      gpaToHva_hvaToGpa wide narrow valid, ← offset]

/-- A process of a common size: 39 physical bits, its stack above its mappings. -/
def usualMm : MmStruct where
  mmapBase := 0x7ffff7fff000#64
  startStack := 0x7fffffffe000#64

theorem library_kernel_addresses_agree_usual :
    hvaToGpa 39 usualMm 0x400000#64 ≠ addrInval ∧
      hvaToGpa 39 usualMm 0x7ffff7ff0000#64 ≠ addrInval ∧
      hvaToGpa 39 usualMm 0x7fffffffd000#64 ≠ addrInval ∧
      duneVaToPa (getLayout 39 usualMm) 0x7fffffffd000#64 =
        hvaToGpa 39 usualMm 0x7fffffffd000#64 :=
  ⟨by decide, by decide, by decide,
    ((library_kernel_addresses_agree (by decide) (by decide) usualMm).1 _ (by decide)).1⟩

end RdmaPaging
