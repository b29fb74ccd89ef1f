import RdmaPaging.ElfLoad

/-!
The section headers of an ELF image in memory, in libdune's `elf.c`: `dune_elf_open_mem` and
`dune_elf_iter_sh`, and which bytes of the image a read copies.
-/

namespace RdmaPaging

open ByteMemory

/-- What an `int` keeps of a value. -/
def intOf (value : Int) : Int := value.bmod (2 ^ 32)

/-- An `int` as a `size_t`. -/
def sizeOfInt (value : Int) : Nat := (value % 2 ^ 64).toNat

/-- Its length is given to `dune_elf_open_mem` as an `int`. -/
structure ElfImage where
  bytes : List (BitVec 8)
  fits : bytes.length < 2 ^ 31

def ElfImage.len (image : ElfImage) : Nat := image.bytes.length

def ElfImage.byte (image : ElfImage) : Memory := fun index => image.bytes.getD index 0

/-- The blocks that are read into, by the fields of `struct dune_elf`. -/
inductive ElfBlock
  | hdr
  | shdr
  | shdrstr

/-- The process around the library: the bytes next to the image, what a new block holds, whether `malloc`
serves a size, and the answers of the callback. -/
structure ElfHost where
  around : Int → BitVec 8
  fresh : ElfBlock → Memory
  grants : ElfBlock → Nat → Bool
  ptrdiffMax : ∀ block size, 2 ^ 63 ≤ size → grants block size = false
  cb : Nat → Int

def ElfHost.byteAt (host : ElfHost) (image : ElfImage) (place : Int) : BitVec 8 :=
  if 0 ≤ place ∧ place < image.len then image.byte place.toNat else host.around place

/-- What is accessed: bytes of the image, a section header, and a string given to the callback. -/
inductive ElfAccess
  | image (off : Int) (count : Nat)
  | header (shnum index : Nat)
  | name (shdrstr : Memory) (strtablen start : Nat)

structure ElfRead where
  ret : Int
  accesses : List ElfAccess
  dst : Memory

def elfRead (host : ElfHost) (image : ElfImage) (block : ElfBlock) (len off : Int) : ElfRead :=
  let rd := intOf (image.len - off)
  if rd ≤ 0 then ⟨0, [], host.fresh block⟩
  else
    let rd := if len < rd then len else rd
    ⟨rd, [.image off (sizeOfInt rd)], fun index =>
      if index < sizeOfInt rd then host.byteAt image (off + index) else host.fresh block index⟩

/-- What a call has accessed, and its result. -/
abbrev ElfRun (α : Type) := List ElfAccess × Except Int α

def ElfRead.check (read : ElfRead) {α : Type} (result : ElfRead → Except Int α) : ElfRun α :=
  (read.accesses, result read)

def ElfRun.andThen {α β : Type} : ElfRun α → (α → ElfRun β) → ElfRun β
  | (accesses, .error code), _ => (accesses, .error code)
  | (accesses, .ok value), next => (accesses ++ (next value).1, (next value).2)

/-- The value that is returned, an error or the answer of the last step. -/
def returned : Except Int Int → Int
  | .error code => code
  | .ok ret => ret

/-- `Elf64_Ehdr`. -/
structure Elf64Ehdr where
  eIdent : List (BitVec 8)
  eMachine : Nat
  eVersion : Nat
  eShoff : Nat
  eShentsize : Nat
  eShnum : Nat
  eShstrndx : Nat

def ehdrOf (mem : Memory) : Elf64Ehdr where
  eIdent := (List.range 16).map mem
  eMachine := loadLe mem 18 2
  eVersion := loadLe mem 20 4
  eShoff := loadLe mem 40 8
  eShentsize := loadLe mem 58 2
  eShnum := loadLe mem 60 2
  eShstrndx := loadLe mem 62 2

/-- `Elf64_Shdr`. -/
structure Elf64Shdr where
  shName : Nat
  shType : Nat
  shOffset : Nat
  shSize : Nat

def shdrOf (mem : Memory) (start : Nat) : Elf64Shdr where
  shName := loadLe mem start 4
  shType := loadLe mem (start + 4) 4
  shOffset := loadLe mem (start + 24) 8
  shSize := loadLe mem (start + 32) 8

/-- `ELFMAG0` to `ELFMAG3`, `ELFCLASS64`, `ELFDATA2LSB` and `EV_CURRENT`. -/
def elfIdent : List (BitVec 8) := [0x7f, 0x45, 0x4c, 0x46, 2, 1, 1]

def evCurrent : Nat := 1
def emX8664 : Nat := 62
def shtStrtab : Nat := 3
def maxSname : Nat := 40
def maxShnum : Nat := 100
def elfEio : Int := 5

/-- The checks of `do_elf_open` on what it reads. -/
def checkEhdr (read : ElfRead) : Except Int Elf64Ehdr :=
  let hdr := ehdrOf read.dst
  if sizeOfInt read.ret ≠ 64 then .error (-elfEio)
  else if hdr.eIdent.take 7 ≠ elfIdent ∨ hdr.eVersion ≠ evCurrent then .error (-ummEinval)
  else if hdr.eMachine ≠ emX8664 then .error (-ummEinval)
  else .ok hdr

def doElfOpen (host : ElfHost) (image : ElfImage) : ElfRun Elf64Ehdr :=
  (elfRead host image .hdr 64 0).check checkEhdr

/-- The tables that `elf_open_shs` leaves, with the length that it has read the names with. -/
structure ElfTables where
  shdr : Memory
  shdrstr : Memory
  strtablen : Nat

def readShdr (shnum : Nat) (shdr : Memory) (index : Nat) : ElfRun Elf64Shdr :=
  ([.header shnum index], .ok (shdrOf shdr (64 * index)))

/-- The checks of `elf_open_shs` on the header table that it reads. -/
def checkShdr (hdr : Elf64Ehdr) (len : Nat) (read : ElfRead) : Except Int Memory :=
  if sizeOfInt read.ret ≠ len then .error (-elfEio)
  else if hdr.eShnum < hdr.eShstrndx then .error (-ummEinval)
  else .ok read.dst

/-- The part of `elf_open_shs` about the table of the names. -/
def openStrtab (host : ElfHost) (image : ElfImage) (shdr : Memory) (str : Elf64Shdr) : ElfRun ElfTables :=
  if str.shType ≠ shtStrtab then ([], .error (-ummEinval))
  else if !host.grants .shdrstr str.shSize then ([], .error (-ummEnomem))
  else
    (elfRead host image .shdrstr (intOf str.shSize) (intOf str.shOffset)).check fun read =>
      if sizeOfInt read.ret ≠ str.shSize then .error (-elfEio) else .ok ⟨shdr, read.dst, str.shSize⟩

def elfOpenShs (host : ElfHost) (image : ElfImage) (hdr : Elf64Ehdr) : ElfRun ElfTables :=
  if hdr.eShentsize ≠ 64 then ([], .error (-ummEinval))
  else if maxShnum < hdr.eShnum then ([], .error (-ummEinval))
  else
    let len := hdr.eShnum * hdr.eShentsize
    if !host.grants .shdr len then ([], .error (-ummEnomem))
    else
      let read := (elfRead host image .shdr (intOf len) (intOf hdr.eShoff)).check (checkShdr hdr len)
      read.andThen fun shdr =>
        (readShdr hdr.eShnum shdr hdr.eShstrndx).andThen (openStrtab host image shdr)

def strnlen (mem : Memory) (start : Nat) : Nat → Nat
  | 0 => 0
  | max + 1 => if mem start = 0 then 0 else strnlen mem (start + 1) max + 1

/-- The loop of `dune_elf_iter_sh` over the sections that are left. -/
def iterShFrom (host : ElfHost) (shnum : Nat) (tables : ElfTables) : Nat → Nat → ElfRun Int
  | 0, _ => ([], .ok 0)
  | left + 1, index =>
      (readShdr shnum tables.shdr index).andThen fun header =>
        if strnlen tables.shdrstr header.shName maxSname = maxSname then ([], .error (-ummEinval))
        else
          let name := .name tables.shdrstr tables.strtablen header.shName
          ElfRun.andThen ([name], .ok (host.cb index)) fun ret =>
            if ret ≠ 0 then ([], .ok ret) else iterShFrom host shnum tables left (index + 1)

def duneElfIterSh (host : ElfHost) (image : ElfImage) (hdr : Elf64Ehdr) : ElfRun Int :=
  (elfOpenShs host image hdr).andThen fun tables => iterShFrom host hdr.eShnum tables hdr.eShnum 0

/-- `dune_elf_open_mem`, and where it succeeds `dune_elf_iter_sh`. -/
def readSections (host : ElfHost) (image : ElfImage) : ElfRun Int :=
  (doElfOpen host image).andThen (duneElfIterSh host image)

/-! What has to hold of a run. -/

/-- Bytes of the image, a header that is counted, or a string that ends in the table. -/
def ElfAccess.Contained (image : ElfImage) : ElfAccess → Prop
  | .image off count => ∀ index : Nat, index < count → 0 ≤ off + index ∧ off + index < image.len
  | .header shnum index => index < shnum
  | .name shdrstr strtablen start => ∃ last, start ≤ last ∧ last < strtablen ∧ shdrstr last = 0

def ElfImage.Inside (image : ElfImage) (off len : Nat) : Prop := len = 0 ∨ off + len ≤ image.len

/-- The tables are where the headers place them, in all of their bits. -/
def TablesInside (image : ElfImage) : Prop :=
  let hdr := ehdrOf image.byte
  let str := shdrOf image.byte (hdr.eShoff + 64 * hdr.eShstrndx)
  image.Inside hdr.eShoff (hdr.eShnum * 64) ∧ hdr.eShstrndx < hdr.eShnum ∧
    image.Inside str.shOffset str.shSize

structure SectionsContained (host : ElfHost) (image : ElfImage) : Prop where
  inside : ∀ access ∈ (readSections host image).1, access.Contained image
  refused : ¬ TablesInside image → returned (readSections host image).2 < 0


/-! Reads of the image. -/

theorem intOf_bounds (value : Int) : -2 ^ 31 ≤ intOf value ∧ intOf value < 2 ^ 31 := by
  have low := Int.le_bmod (x := value) (m := 2 ^ 32) (by decide)
  have high := Int.bmod_lt (x := value) (m := 2 ^ 32) (by decide)
  rw [intOf]
  omega

theorem intOf_small {value : Int} (low : -2 ^ 31 ≤ value) (high : value < 2 ^ 31) : intOf value = value := by
  rw [intOf, Int.bmod_def]
  split <;> omega

theorem intOf_over {value : Int} (low : 2 ^ 31 ≤ value) (high : value < 2 ^ 32) : intOf value < 0 := by
  rw [intOf, Int.bmod_def]
  split <;> omega

theorem sizeOfInt_nonneg {value : Int} (nonneg : 0 ≤ value) (small : value < 2 ^ 31) :
    (sizeOfInt value : Int) = value := by
  rw [sizeOfInt]
  omega

theorem sizeOfInt_neg {value : Int} (negative : value < 0) (small : -2 ^ 31 ≤ value) :
    2 ^ 63 ≤ sizeOfInt value := by
  rw [sizeOfInt]
  omega

/-- Where a read of an `int` of bytes at an `int` stays in the image: it starts after the image, the
length that is left does not fit an `int`, it copies nothing, or both are as they should be. -/
def ElfImage.ReadInside (image : ElfImage) (len off : Int) : Prop :=
  image.len ≤ off ∨ 2 ^ 31 ≤ image.len - off ∨ len = 0 ∨ 0 < len ∧ 0 ≤ off

/-- Where such a read copies all that is asked for. -/
def ElfImage.ReadFull (image : ElfImage) (len : Nat) (off : Int) : Prop :=
  len = 0 ∨ 0 ≤ off ∧ off + len ≤ image.len

section Read

variable {host : ElfHost} {image : ElfImage} {block : ElfBlock} {len off : Int} {size : Nat}

/-- A read copies nothing, or as many of the bytes as there are from its offset on. -/
theorem elfRead_cases (host : ElfHost) (image : ElfImage) (block : ElfBlock) (len : Int)
    (place : -2 ^ 31 ≤ off ∧ off < 2 ^ 31) :
    (elfRead host image block len off = ⟨0, [], host.fresh block⟩ ∧
        (image.len ≤ off ∨ 2 ^ 31 ≤ image.len - off)) ∨
      (off < image.len ∧ image.len - off < 2 ^ 31 ∧ ∃ rd : Int, rd = min len (image.len - off) ∧
        elfRead host image block len off =
          ⟨rd, [.image off (sizeOfInt rd)], fun index =>
            if index < sizeOfInt rd then host.byteAt image (off + index) else host.fresh block index⟩) := by
  have fits : image.len < 2 ^ 31 := image.fits
  by_cases excess : (2 : Int) ^ 31 ≤ image.len - off
  · have negative : intOf (image.len - off) < 0 := intOf_over excess (by omega)
    exact .inl ⟨by rw [elfRead, if_pos (by omega)], .inr excess⟩
  · have exactly : intOf (image.len - off) = image.len - off := intOf_small (by omega) (by omega)
    by_cases after : (image.len : Int) ≤ off
    · exact .inl ⟨by rw [elfRead, exactly, if_pos (by omega)], .inl after⟩
    · refine .inr ⟨by omega, by omega, _, rfl, ?_⟩
      have least : (if len < image.len - off then len else image.len - off) = min len (image.len - off) := by
        split <;> omega
      simp only [elfRead, exactly, if_neg (show ¬ (image.len : Int) - off ≤ 0 by omega), least]

theorem elfRead_contained_iff (host : ElfHost) (block : ElfBlock) (place : -2 ^ 31 ≤ off ∧ off < 2 ^ 31) (count : -2 ^ 31 ≤ len ∧ len < 2 ^ 31) :
    (∀ access ∈ (elfRead host image block len off).accesses, access.Contained image) ↔
      image.ReadInside len off := by
  have fits : image.len < 2 ^ 31 := image.fits
  obtain ⟨same, none⟩ | ⟨before, exactly, rd, least, same⟩ := elfRead_cases host image block len place
  · rw [same]
    refine ⟨fun _ => ?_, fun _ access member => absurd member List.not_mem_nil⟩
    exact none.imp_right .inl
  · rw [same, List.forall_mem_singleton, ElfImage.ReadInside]
    by_cases negative : rd < 0
    · have many := sizeOfInt_neg negative (by omega)
      refine ⟨fun inside => ?_, by omega⟩
      have last := inside (2 ^ 62) (by omega)
      omega
    · have exact := sizeOfInt_nonneg (show 0 ≤ rd by omega) (by omega)
      constructor
      · intro inside
        by_cases zero : len = 0
        · omega
        · have first := inside 0 (by omega)
          omega
      · intro _ index inside
        omega

theorem elfRead_full_iff (host : ElfHost) (block : ElfBlock) (place : -2 ^ 31 ≤ off ∧ off < 2 ^ 31) (small : size < 2 ^ 63)
    (inside : image.ReadInside (intOf size) off) :
    sizeOfInt (elfRead host image block (intOf size) off).ret = size ↔ image.ReadFull size off := by
  have fits : image.len < 2 ^ 31 := image.fits
  have bounds := intOf_bounds size
  rw [ElfImage.ReadInside] at inside
  rw [ElfImage.ReadFull]
  have whole : (size : Int) < 2 ^ 31 → intOf size = size := intOf_small (by omega)
  obtain ⟨same, none⟩ | ⟨before, exactly, rd, least, same⟩ :=
    elfRead_cases host image block (intOf size) place
  · rw [same, show sizeOfInt 0 = 0 from rfl]
    omega
  · rw [same]
    have exact := sizeOfInt_nonneg (show 0 ≤ rd by omega) (by omega)
    dsimp only
    omega

/-- What a full read leaves: the bytes of the image, and the rest of the block as it was. -/
theorem elfRead_dst (host : ElfHost) (block : ElfBlock) (place : -2 ^ 31 ≤ off ∧ off < 2 ^ 31) (small : size < 2 ^ 63)
    (inside : image.ReadInside (intOf size) off) (full : image.ReadFull size off) (index : Nat) :
    (elfRead host image block (intOf size) off).dst index =
      if index < size then image.byte (off.toNat + index) else host.fresh block index := by
  have fits : image.len < 2 ^ 31 := image.fits
  have ret := (elfRead_full_iff host block place small inside).mpr full
  obtain ⟨same, none⟩ | ⟨before, exactly, rd, least, same⟩ :=
    elfRead_cases host image block (intOf size) place
  · rw [same, show sizeOfInt 0 = 0 from rfl] at ret
    rw [same, ← ret]
    rfl
  · rw [same] at ret ⊢
    dsimp only at ret ⊢
    rw [ret]
    split
    · rw [ElfImage.ReadFull] at full
      rw [ElfHost.byteAt, if_pos (by omega)]
      congr 1
      omega
    · rfl

end Read

end RdmaPaging
