import RdmaPaging.SthreadAsserts

/-!
The pointers that `syscall_handler` hands to the host. It undoes `dune_va_to_pa` with a boundary of
its own, for the first page of a buffer, and takes the rest of the buffer to lie behind that page.
-/

namespace RdmaPaging

/-! Frames. -/

/-- The areas of a process start at user addresses. -/
structure MmStruct.UserAreas (mm : MmStruct) : Prop where
  map : mm.mmapStart.toNat ≤ 2 ^ 47
  stack : mm.stackStart.toNat ≤ 2 ^ 47

/-- The entry has the address that `dune_va_to_pa` gives to a page that the kernel module accepts. -/
def BuiltFromVa (physBits : Nat) (mm : MmStruct) (pte : Ptent) : Prop :=
  ∃ hva, hva.toNat % 4096 = 0 ∧ hvaToGpa physBits mm hva ≠ addrInval ∧
    pteAddr pte = duneVaToPa (getLayout physBits mm) hva

/-- The address in the host of the frame of an entry. -/
def frameAddr (physBits : Nat) (mm : MmStruct) (pte : Ptent) : VirtAddr :=
  gpaToHva physBits mm (pteAddr pte)

/-- The address is below the boundary of the check, or in the stack area of a layout whose areas
are as far apart as the check takes them to be. -/
def FrameInverted (layout : DuneLayout) (pte : Ptent) : Prop :=
  (pteAddr pte).toNat < 2 ^ 34 ∨
    layout.physLimit.toNat - 2 ^ 28 ≤ (pteAddr pte).toNat ∧
      layout.stackBase.toNat + 2 ^ 28 + 2 ^ 34 = layout.physLimit.toNat + layout.mmapBase.toNat

section Frames

variable {physBits : Nat} {mm : MmStruct} {pte : Ptent}

theorem physEnd_wide (wide : 36 ≤ physBits) (narrow : physBits ≤ 52) :
    2 ^ 36 ≤ (physEnd physBits).toNat ∧ (physEnd physBits).toNat ≤ 2 ^ 52 := by
  rw [physEnd_toNat narrow]
  exact ⟨Nat.pow_le_pow_right (by decide) wide, Nat.pow_le_pow_right (by decide) narrow⟩

/-- Where a frame lies, by its guest-physical address. -/
theorem frameAddr_cases (wide : 36 ≤ physBits) (narrow : physBits ≤ 52) (areas : mm.UserAreas)
    (built : BuiltFromVa physBits mm pte) :
    ((pteAddr pte).toNat < (physEnd physBits).toNat - 2 ^ 31 ∧
      (frameAddr physBits mm pte).toNat = (pteAddr pte).toNat ∧
      (pteAddr pte).toNat < mm.mmapStart.toNat) ∨
    ((physEnd physBits).toNat - 2 ^ 31 ≤ (pteAddr pte).toNat ∧
      (pteAddr pte).toNat < (physEnd physBits).toNat - 2 ^ 28 ∧
      (frameAddr physBits mm pte).toNat =
        (pteAddr pte).toNat - ((physEnd physBits).toNat - 2 ^ 31) + mm.mmapStart.toNat) ∨
    ((physEnd physBits).toNat - 2 ^ 28 ≤ (pteAddr pte).toNat ∧
      (pteAddr pte).toNat < (physEnd physBits).toNat ∧
      (frameAddr physBits mm pte).toNat =
        (pteAddr pte).toNat - ((physEnd physBits).toNat - 2 ^ 28) + mm.stackStart.toNat) := by
  obtain ⟨low, high⟩ := physEnd_wide wide narrow
  obtain ⟨mapLow, stackLow⟩ := areas
  have stackBase := @stackRegion_toNat physBits (by omega) narrow
  have mapBase := @mapRegion_toNat physBits (by omega) narrow
  have stackSize : gpaStackSize.toNat = 2 ^ 28 := by decide
  have mapSize : gpaMapSize.toNat = 2 ^ 31 - 2 ^ 28 := by decide
  obtain ⟨hva, aligned, valid, address⟩ := built
  have inverse := @gpaToHva_hvaToGpa physBits mm hva (by omega) narrow valid
  rw [duneVaToPa_eq_hvaToGpa valid] at address
  rw [frameAddr, address, inverse]
  rcases hvaToGpa_cases valid with ⟨above, inside, gpa⟩ | ⟨_, above, inside, gpa⟩ |
      ⟨_, below, inside, gpa⟩
  · right
    right
    rw [BitVec.le_def] at above
    rw [BitVec.lt_def, BitVec.toNat_sub] at inside
    have value : (hvaToGpa physBits mm hva).toNat =
        (physEnd physBits).toNat - 2 ^ 28 + (hva.toNat - mm.stackStart.toNat) := by
      rw [gpa, BitVec.toNat_sub, BitVec.toNat_add, BitVec.toNat_sub]
      omega
    omega
  · right
    left
    rw [BitVec.le_def] at above
    rw [BitVec.lt_def, BitVec.toNat_sub] at inside
    have value : (hvaToGpa physBits mm hva).toNat =
        (physEnd physBits).toNat - 2 ^ 31 + (hva.toNat - mm.mmapStart.toNat) := by
      rw [gpa, BitVec.toNat_sub, BitVec.toNat_sub, BitVec.toNat_add, BitVec.toNat_sub]
      omega
    omega
  · left
    rw [BitVec.le_def] at below
    rw [BitVec.lt_def] at inside
    rw [gpa]
    omega

theorem checkedAddr_toNat (wide : 36 ≤ physBits) (narrow : physBits ≤ 52) (areas : mm.UserAreas)
    (built : BuiltFromVa physBits mm pte) : checkedAddr (getLayout physBits mm) pte =
      if 2 ^ 34 ≤ (pteAddr pte).toNat then (pteAddr pte).toNat - 2 ^ 34 + mm.mmapStart.toNat
      else (pteAddr pte).toNat := by
  have high := (physEnd_wide wide narrow).2
  have low := areas.map
  have bound : (pteAddr pte).toNat < 2 ^ 52 := by
    rcases frameAddr_cases wide narrow areas built with place | place | place <;> omega
  have boundary : (0x400000000#64).toNat = 2 ^ 34 := rfl
  have map : (getLayout physBits mm).mmapBase = mm.mmapStart := rfl
  unfold checkedAddr
  simp only [BitVec.le_def, boundary, map]
  split
  · rw [BitVec.toNat_sub, BitVec.toNat_add, boundary]
    omega
  · rfl

/-- The check computes the address of the frame exactly for the inverted ones. -/
theorem checkedAddr_iff (wide : 36 ≤ physBits) (narrow : physBits ≤ 52) (areas : mm.UserAreas)
    (built : BuiltFromVa physBits mm pte) :
    checkedAddr (getLayout physBits mm) pte = (frameAddr physBits mm pte).toNat ↔
      FrameInverted (getLayout physBits mm) pte := by
  obtain ⟨low, high⟩ := physEnd_wide wide narrow
  have limit : (getLayout physBits mm).physLimit = physEnd physBits := rfl
  have map : (getLayout physBits mm).mmapBase = mm.mmapStart := rfl
  have stack : (getLayout physBits mm).stackBase = mm.stackStart := rfl
  rw [checkedAddr_toNat wide narrow areas built, FrameInverted, limit, map, stack]
  rcases frameAddr_cases wide narrow areas built with ⟨first, same, below⟩ | ⟨first, last, same⟩ |
      ⟨first, last, same⟩
  · rw [same]
    split <;> omega
  · rw [same, if_pos (by omega)]
    omega
  · rw [same, if_pos (by omega)]
    omega

theorem checkedAddr_zero (wide : 36 ≤ physBits) (narrow : physBits ≤ 52) (areas : mm.UserAreas)
    (built : BuiltFromVa physBits mm pte) :
    checkedAddr (getLayout physBits mm) pte = 0 ↔ (pteAddr pte).toNat = 0 := by
  have low := (physEnd_wide wide narrow).1
  rw [checkedAddr_toNat wide narrow areas built]
  rcases frameAddr_cases wide narrow areas built with place | place | place <;> split <;> omega

end Frames

/-! The address that the check finds. -/

/-- The first address that is not zero. -/
def foundAddr (layout : DuneLayout) (table : PageTable) : List Nat → Nat
  | [] => 0
  | page :: rest =>
      if table page = 0 ∨ checkedAddr layout (table page) = 0 then foundAddr layout table rest
      else checkedAddr layout (table page)

section Found

variable {layout : DuneLayout} {table : PageTable} {base page : Nat} {pages rest : List Nat}

theorem checkPages_found (base : Nat) (walk : Nat)
    (grants : ∀ page ∈ pages, table page ≠ 0 → grantsWrite (table page) = true) :
    (walkPages (walkCheckPerm layout) base pages (walk, table)).2.1 =
      if walk = 0 then foundAddr layout table pages else walk := by
  induction pages generalizing walk with
  | nil =>
      rw [walkPages, foundAddr]
      split <;> simp_all
  | cons first rest ih =>
      obtain ⟨here, further⟩ := List.forall_mem_cons.mp grants
      rw [walkPages, foundAddr]
      by_cases blank : table first = 0
      · rw [if_pos blank, ih walk further, if_pos (Or.inl blank)]
      · rw [if_neg blank, walkCheckPerm_eq, if_pos (here blank)]
        simp only [if_true, set_same]
        rw [ih _ further]
        by_cases live : walk = 0
        · have some_ : ¬ table first = 0#64 := blank
          by_cases zero : checkedAddr layout (table first) = 0 <;> simp [live, zero, some_]
        · simp [live]

theorem foundAddr_lt (layout : DuneLayout) (table : PageTable) (pages : List Nat) :
    foundAddr layout table pages < 2 ^ 64 := by
  induction pages with
  | nil => exact Nat.two_pow_pos 64
  | cons first rest ih =>
      rw [foundAddr]
      split
      · exact ih
      · unfold checkedAddr
        dsimp only
        split <;> exact BitVec.isLt _

theorem foundAddr_zero : foundAddr layout table pages = 0 ↔
    ∀ page ∈ pages, table page ≠ 0 → checkedAddr layout (table page) = 0 := by
  induction pages with
  | nil => simp [foundAddr]
  | cons first rest ih =>
      rw [foundAddr, List.forall_mem_cons]
      by_cases blank : table first = 0
      · simp [blank, ih]
      · have some_ : ¬ table first = 0#64 := blank
        by_cases zero : checkedAddr layout (table first) = 0 <;> simp [zero, some_, ih]

end Found

/-! Buffers. -/

/-- The register of the handler's `ptr`. -/
def DuneTf.buffer (tf : DuneTf) (num : Int) : BitVec 64 := if num = 2 then tf.rdi else tf.rsi

/-- The address in the host of a byte of an sthread. -/
def hostByteAddr (physBits : Nat) (mm : MmStruct) (table : PageTable) (va : Nat) : VirtAddr :=
  frameAddr physBits mm (table (va % 2 ^ 48 / 4096)) + BitVec.ofNat 64 (va % 4096)

/-- The pointer that is handed to the host names the memory of the buffer. -/
def NamesOwnMemory (physBits : Nat) (mm : MmStruct) (w : Wedge) (s : Sthread PageTable) (call : SthreadCall) :
    Prop :=
  ∀ ptr len, bufferOf call.tf.num call.tf call.pathLen = some (ptr, len) → ∀ k < len,
    (s.rewritten w call).buffer call.tf.num + BitVec.ofNat 64 k = hostByteAddr physBits mm s.pgroot (ptr + k)

def CanonicalByte (va : Nat) : Prop := va < 2 ^ 47 ∨ 2 ^ 64 - 2 ^ 47 ≤ va ∧ va < 2 ^ 64

/-- A call that is let through, with a buffer in pages that the sthread may write to. -/
structure OwnBuffer (physBits : Nat) (mm : MmStruct) (w : Wedge) (s : Sthread PageTable) (call : SthreadCall)
    (ptr len : Nat) : Prop where
  wide : 36 ≤ physBits
  narrow : physBits ≤ 52
  areas : mm.UserAreas
  layout : w.layout = getLayout physBits mm
  built : ∀ page, (s.pgroot page).has pteP = true → BuiltFromVa physBits mm (s.pgroot page)
  permitted : PermittedCall w s call
  buffer : bufferOf call.tf.num call.tf call.pathLen = some (ptr, len)
  noWrap : ptr + len < 2 ^ 64
  canonical : ∀ k < len, CanonicalByte (ptr + k)
  writable : ∀ k < len, grantsWrite (s.pgroot ((ptr + k) % 2 ^ 48 / 4096)) = true

/-- The frame of the first page is one that the check inverts; if it is the one at the address 0,
no other page of the range has another address. -/
def FirstInverted (w : Wedge) (s : Sthread PageTable) (ptr len : Nat) : Prop :=
  FrameInverted w.layout (s.pgroot (ptr % 2 ^ 48 / 4096)) ∧
    ((pteAddr (s.pgroot (ptr % 2 ^ 48 / 4096))).toNat = 0 →
      ∀ page ∈ pagesBetween ptr (ptr + len), s.pgroot page ≠ 0 → (pteAddr (s.pgroot page)).toNat = 0)

/-- The frames of a buffer follow each other in the host. -/
def FramesFollow (physBits : Nat) (mm : MmStruct) (table : PageTable) (ptr len : Nat) : Prop :=
  ∀ k < len, hostByteAddr physBits mm table ptr + BitVec.ofNat 64 k =
    hostByteAddr physBits mm table (ptr + k)

section Buffers

variable {physBits : Nat} {mm : MmStruct} {w : Wedge} {s : Sthread PageTable} {call : SthreadCall}
variable {ptr len : Nat}

theorem DuneTf.buffer_set (tf : DuneTf) (num : Int) (addr : Nat) :
    (tf.setBuffer num addr).buffer num = BitVec.ofNat 64 addr := by
  unfold DuneTf.setBuffer DuneTf.buffer
  split <;> rfl

theorem OwnBuffer.block (own : OwnBuffer physBits mm w s call ptr len) :
    ptr / 2 ^ 48 = (ptr + len) / 2 ^ 48 := by
  have noWrap := own.noWrap
  have canonical := own.canonical
  unfold CanonicalByte at canonical
  clear own
  by_cases empty : len = 0
  · rw [empty, Nat.add_zero]
  · rcases canonical 0 (by omega) with low | ⟨high, _⟩
    · have last : ptr + len ≤ 2 ^ 47 := by
        by_contra past
        have middle := canonical (2 ^ 47 - ptr) (by omega)
        omega
      omega
    · omega

/-- The pages of the range, from the first page of the buffer on. -/
theorem pagesBetween_first (block : ptr / 2 ^ 48 = (ptr + len) / 2 ^ 48) :
    ∃ rest, pagesBetween ptr (ptr + len) = ptr % 2 ^ 48 / 4096 :: rest := by
  obtain ⟨count, total⟩ : ∃ count, (ptr + len) % 2 ^ 48 / 4096 + 1 - ptr % 2 ^ 48 / 4096 = count + 1 :=
    ⟨(ptr + len) % 2 ^ 48 / 4096 - ptr % 2 ^ 48 / 4096, by omega⟩
  exact ⟨_, by rw [pagesBetween, total, List.range'_succ]⟩

theorem OwnBuffer.found (own : OwnBuffer physBits mm w s call ptr len) :
    (hasMemPerm w s ptr len).2 = foundAddr w.layout s.pgroot (pagesBetween ptr (ptr + len)) ∧
      ∀ page ∈ pagesBetween ptr (ptr + len), s.pgroot page ≠ 0 →
        grantsWrite (s.pgroot page) = true := by
  have accepts := (own.permitted.buffer ptr len own.buffer).2
  have same : (ptr + len) % 2 ^ 64 = ptr + len := Nat.mod_eq_of_lt own.noWrap
  rw [hasMemPerm, same, tableWalk] at accepts ⊢
  have grants := (@checkPages w.layout _ _ 0 s.pgroot).2.1.mp (of_decide_eq_true accepts)
  exact ⟨(checkPages_found _ 0 grants).trans (if_pos rfl), grants⟩

theorem OwnBuffer.first (own : OwnBuffer physBits mm w s call ptr len) (some_ : len ≠ 0) :
    (hasMemPerm w s ptr len).2 = (frameAddr physBits mm (s.pgroot (ptr % 2 ^ 48 / 4096))).toNat ↔
      FirstInverted w s ptr len := by
  obtain ⟨found, grants⟩ := own.found
  have wide := own.wide
  have narrow := own.narrow
  have areas := own.areas
  have built : ∀ page ∈ pagesBetween ptr (ptr + len), s.pgroot page ≠ 0 →
      BuiltFromVa physBits mm (s.pgroot page) := fun page member occupied =>
    own.built page (grantsWrite_present (grants page member occupied))
  obtain ⟨rest, pages⟩ := pagesBetween_first own.block
  have granted := own.writable 0 (Nat.pos_of_ne_zero some_)
  rw [Nat.add_zero] at granted
  have occupied := present_nonzero (grantsWrite_present granted)
  have frame := own.built _ (grantsWrite_present granted)
  have inverted := checkedAddr_iff wide narrow areas frame
  have zero := checkedAddr_zero wide narrow areas frame
  rw [found, pages, foundAddr, FirstInverted, own.layout, ← inverted, ← zero]
  generalize ptr % 2 ^ 48 / 4096 = first at pages granted occupied frame inverted zero ⊢
  by_cases none : checkedAddr (getLayout physBits mm) (s.pgroot first) = 0
  · -- the frame at the address 0 leaves the walk to the next address
    have origin : 0 = (frameAddr physBits mm (s.pgroot first)).toNat := by
      rw [← none]
      exact inverted.mpr (Or.inl (by rw [zero.mp none]; decide))
    rw [if_pos (Or.inr none), none, ← origin, foundAddr_zero]
    refine Iff.trans ?_ (and_iff_right rfl).symm
    constructor
    · intro zeros _ page member nonzero
      rcases List.mem_cons.mp (pages ▸ member) with rfl | inRest
      · exact zero.mp none
      · exact (checkedAddr_zero wide narrow areas (built page member nonzero)).mp
          (zeros page inRest nonzero)
    · intro zeros page inRest nonzero
      have member : page ∈ pagesBetween ptr (ptr + len) := pages ▸ List.mem_cons_of_mem _ inRest
      exact (checkedAddr_zero wide narrow areas (built page member nonzero)).mpr
        (zeros rfl page member nonzero)
  · rw [if_neg (not_or.mpr ⟨occupied, none⟩)]
    exact (and_iff_left fun zero => absurd zero none).symm

/-- The pointer that is handed over is right exactly if the first frame is inverted and the others
follow it in the host. -/
theorem names_own_memory_iff (own : OwnBuffer physBits mm w s call ptr len) :
    NamesOwnMemory physBits mm w s call ↔
      len = 0 ∨ FirstInverted w s ptr len ∧ FramesFollow physBits mm s.pgroot ptr len := by
  have buffer := own.buffer
  have pointer : (s.rewritten w call).buffer call.tf.num =
      BitVec.ofNat 64 (hasMemPerm w s ptr len).2 + BitVec.ofNat 64 (ptr % 4096) := by
    rw [Sthread.rewritten, buffer]
    exact (DuneTf.buffer_set _ _ _).trans (BitVec.ofNat_add _ _)
  have claim : NamesOwnMemory physBits mm w s call ↔ ∀ k < len,
      BitVec.ofNat 64 (hasMemPerm w s ptr len).2 + BitVec.ofNat 64 (ptr % 4096) + BitVec.ofNat 64 k =
        hostByteAddr physBits mm s.pgroot (ptr + k) := by
    simp only [NamesOwnMemory, buffer, pointer, Option.some.injEq, Prod.mk.injEq]
    constructor
    · intro names
      exact names ptr len ⟨rfl, rfl⟩
    · rintro names _ _ ⟨rfl, rfl⟩
      exact names
  rw [claim]
  by_cases empty : len = 0
  · exact iff_of_true (fun k inside => by omega) (Or.inl empty)
  · have small : (hasMemPerm w s ptr len).2 < 2 ^ 64 := by
      rw [own.found.1]
      exact foundAddr_lt _ _ _
    have base : BitVec.ofNat 64 (hasMemPerm w s ptr len).2 =
        frameAddr physBits mm (s.pgroot (ptr % 2 ^ 48 / 4096)) ↔ FirstInverted w s ptr len := by
      rw [← own.first empty, ← BitVec.toNat_inj, BitVec.toNat_ofNat, Nat.mod_eq_of_lt small]
    rw [← base]
    constructor
    · intro names
      have first := names 0 (Nat.pos_of_ne_zero empty)
      rw [Nat.add_zero, hostByteAddr, BitVec.add_zero] at first
      have same := add_right_cancel first
      refine Or.inr ⟨same, fun k inside => ?_⟩
      rw [hostByteAddr, ← same]
      exact names k inside
    · rintro (none | ⟨same, follow⟩) k inside
      · exact absurd none empty
      · rw [← follow k inside, hostByteAddr, same]

end Buffers

/-! A process with 36 bits of physical addresses. -/

def smallMm : MmStruct := ⟨0x7f0070000000#64, 0x7fff10000000#64⟩

def smallWedge : Wedge where
  layout := getLayout 36 smallMm
  segments := [dataSegment]
  tags := []
  checkpointedMem := 0x7f0000000000
  master := fun _ => 0

/-- An sthread with one page, which may read the descriptor 3. -/
def pageSthread (pte : Ptent) : Sthread PageTable where
  id := 1
  state := .running
  ret := 0
  stack := leakStack
  pgroot := fun page => if page = 0x601 then pte else 0
  sc := leakContext
  writable := leakCopy
  walk := 4096

/-- The entry that `walk_remap` makes for the first page of the copy. -/
def copiedPage : Ptent := copyEntry (getLayout 36 smallMm) leakCopy 0

/-- The entry of a page of the program. -/
def programPage : Ptent := 0x601000#64 ||| pteP ||| pteW ||| pteU

theorem pageSthread_own {pte : Ptent} (grants : grantsWrite pte = true)
    (built : BuiltFromVa 36 smallMm pte)
    (accepts : (hasMemPerm smallWedge (pageSthread pte) 0x601000 1).1 = true) :
    OwnBuffer 36 smallMm smallWedge (pageSthread pte) allowedRead 0x601000 1 where
  wide := by decide
  narrow := by decide
  areas := ⟨by decide, by decide⟩
  layout := rfl
  built := by
    intro page present
    simp only [pageSthread] at present ⊢
    split at present
    · rename_i isPage
      rw [if_pos isPage]
      exact built
    · exact absurd present (by decide)
  permitted := by
    refine ⟨rfl, ?_, ?_⟩
    · rintro perm isRead
      obtain rfl : protRead = perm := Option.some.inj isRead
      exact (by decide : hasFdPerm leakContext (allowedRead.tf.rdi.setWidth 32) protRead = true)
    · rintro ptr len buffer
      obtain ⟨rfl, rfl⟩ : 0x601000 = ptr ∧ 1 = len := Prod.ext_iff.mp (Option.some.inj buffer)
      exact ⟨by simp [pageSthread], accepts⟩
  buffer := by decide
  noWrap := by decide
  canonical := by
    intro k inside
    exact Or.inl (by omega)
  writable := by
    intro k inside
    obtain rfl : k = 0 := by omega
    exact grants

theorem copied_page_misnamed :
    OwnBuffer 36 smallMm smallWedge (pageSthread copiedPage) allowedRead 0x601000 1 ∧
      ¬ NamesOwnMemory 36 smallMm smallWedge (pageSthread copiedPage) allowedRead := by
  have built : BuiltFromVa 36 smallMm copiedPage :=
    ⟨0x7f0000200000#64, by decide, by decide, by decide⟩
  refine ⟨pageSthread_own (by decide) built (by decide), fun names => ?_⟩
  have wrong := names 0x601000 1 (by decide) 0 (by decide)
  exact absurd wrong (by decide)

theorem names_own_memory_program :
    NamesOwnMemory 36 smallMm smallWedge (pageSthread programPage) allowedRead := by
  have own := pageSthread_own (show grantsWrite programPage = true by decide)
    ⟨0x601000#64, by decide, by decide, by decide⟩ (by decide)
  refine (names_own_memory_iff own).mpr (Or.inr ⟨⟨Or.inl (by decide), fun zero => ?_⟩, ?_⟩)
  · exact absurd zero (by decide)
  · intro k inside
    obtain rfl : k = 0 := by omega
    rfl

end RdmaPaging
