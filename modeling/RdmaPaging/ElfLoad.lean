import RdmaPaging.ByteMemory
import RdmaPaging.UmmLock

/-!
Loading a segment of an ELF file, `dune_elf_load_ph` of libdune's `elf.c`.
-/

namespace RdmaPaging

open ByteMemory

structure Elf64Phdr where
  pType : BitVec 32
  pFlags : BitVec 32
  pOffset : Size
  pVaddr : VirtAddr
  pFilesz : Size
  pMemsz : Size

def ptLoad : BitVec 32 := 1
def pfX : BitVec 32 := 1
def pfW : BitVec 32 := 2
def pfR : BitVec 32 := 4

/-- `PGADDR`. -/
def pgaddr64 (addr : BitVec 64) : BitVec 64 := addr &&& ~~~ 0xfff#64

/-- `PGOFF`. -/
def pgoff64 (addr : BitVec 64) : BitVec 64 := addr &&& 0xfff#64

/-- A mapped page. An access to a page of a file mapping past the end of the file is a `SIGBUS`. -/
structure SegmentPage where
  prot : BitVec 32
  pastEnd : Bool

/-- The memory of the process. `touched` holds the pages that the load has mapped or written. -/
structure SegmentMem where
  byte : Memory
  page : Nat → Option SegmentPage
  touched : Nat → Bool

/-- A fixed mapping, with the bytes and the page for each distance from its start. -/
def SegmentMem.map (mem : SegmentMem) (addr : VirtAddr) (len : Size) (byte : Nat → BitVec 8)
    (page : Nat → SegmentPage) : SegmentMem where
  byte := fun va => if rangePages addr len (va / 4096) then byte (va - addr.toNat) else mem.byte va
  page := fun number =>
    if rangePages addr len number then some (page (number * 4096 - addr.toNat)) else mem.page number
  touched := fun number => rangePages addr len number || mem.touched number

/-- The private mapping of a file, zero from its end to the end of the page. -/
def mapFile (willing : Bool) (addr : VirtAddr) (len : Size) (prot : BitVec 32) (file : List (BitVec 8))
    (offset : Size) (mem : SegmentMem) : Option SegmentMem :=
  if willing && len ≠ 0 && hostFits addr len then
    some (mem.map addr len (fun distance => file.getD (offset.toNat + distance) 0)
      fun distance => ⟨prot, file.length ≤ offset.toNat + distance⟩)
  else none

def mapAnon (willing : Bool) (addr : VirtAddr) (len : Size) (prot : BitVec 32) (mem : SegmentMem) :
    Option SegmentMem :=
  if willing && len ≠ 0 && hostFits addr len then some (mem.map addr len (fun _ => 0) fun _ => ⟨prot, false⟩)
  else none

/-- `mprotect` of one page. -/
def SegmentMem.protect (mem : SegmentMem) (willing : Bool) (addr : VirtAddr) (prot : BitVec 32) :
    Option SegmentMem :=
  match mem.page (addr.toNat / 4096) with
  | some page =>
      if willing then
        some { mem with
          page := Function.update mem.page (addr.toNat / 4096) (some { page with prot := prot }) }
      else none
  | none => none

/-- `memset` to 0 of a range within one page. There is no result when the access faults. -/
def SegmentMem.clear (mem : SegmentMem) (start len : Nat) : Option SegmentMem :=
  match mem.page (start / 4096) with
  | some page =>
      if page.prot &&& protWrite ≠ 0 && !page.pastEnd then
        some { mem with
          byte := store mem.byte start (List.replicate len 0)
          touched := fun number => number = start / 4096 || mem.touched number }
      else none
  | none => none

/-- Whether the host serves the calls, in the order of the source. -/
structure LoadWill where
  file : Bool
  unprotect : Bool
  reprotect : Bool
  anon : Bool

inductive LoadEnd
  | returned (code : Int) (mem : SegmentMem)
  | faulted

def segmentProt (flags : BitVec 32) : BitVec 32 :=
  (if flags &&& pfX ≠ 0 then protExec else 0) ||| (if flags &&& pfR ≠ 0 then protRead else 0) |||
    (if flags &&& pfW ≠ 0 then protWrite else 0)

/-- The bits that are not page aligned. -/
def clearPartial (will : LoadWill) (prot : BitVec 32) (start mapStart : VirtAddr) (mem : SegmentMem) :
    LoadEnd :=
  let modProt := prot &&& protWrite = 0
  if start < mapStart then
    match if modProt then mem.protect will.unprotect (mapStart - 0x1000) (prot ||| protWrite) else some mem with
    | none => .returned (-ummEnomem) mem
    | some opened =>
        match opened.clear start.toNat (mapStart - start).toNat with
        | none => .faulted
        | some cleared =>
            match if modProt then cleared.protect will.reprotect (mapStart - 0x1000) prot else some cleared with
            | none => .returned (-ummEnomem) cleared
            | some closed => .returned 0 closed
  else .returned 0 mem

def duneElfLoadPh (will : LoadWill) (phdr : Elf64Phdr) (off : Size) (file : List (BitVec 8))
    (mem : SegmentMem) : LoadEnd :=
  let prot := segmentProt phdr.pFlags
  if phdr.pType ≠ ptLoad then .returned (-ummEinval) mem
  else if phdr.pMemsz < phdr.pFilesz then .returned (-ummEinval) mem
  else
    match mapFile will.file (pgaddr64 phdr.pVaddr + off) (phdr.pFilesz + pgoff64 phdr.pVaddr) prot file
      (pgaddr64 phdr.pOffset) mem with
    | none => .returned (-ummEnomem) mem
    | some mem =>
        if phdr.pFilesz < phdr.pMemsz then
          let start := phdr.pVaddr + phdr.pFilesz + off
          let mapStart := pgRound start
          let zeroLen := phdr.pMemsz - phdr.pFilesz
          match clearPartial will prot start mapStart mem with
          | .returned 0 mem =>
              match mapAnon will.anon mapStart zeroLen prot mem with
              | none => .returned (-ummEnomem) mem
              | some mem => .returned 0 mem
          | other => other
        else .returned 0 mem

/-- Where the segment goes. -/
def segmentStart (phdr : Elf64Phdr) (off : Size) : Nat := phdr.pVaddr.toNat + off.toNat

/-- A segment that a linker can have made, in a file that has all of it. -/
structure SegmentValid (phdr : Elf64Phdr) (off : Size) (file : List (BitVec 8)) : Prop where
  load : phdr.pType = ptLoad
  sizes : phdr.pFilesz.toNat ≤ phdr.pMemsz.toNat
  nonempty : 0 < phdr.pMemsz.toNat
  congruent : phdr.pOffset.toNat % 4096 = phdr.pVaddr.toNat % 4096
  inSpace : segmentStart phdr off + phdr.pMemsz.toNat < 2 ^ 64
  covered : phdr.pOffset.toNat + phdr.pFilesz.toNat ≤ file.length

/-- The page and the segment have no byte in common. -/
def MissesSegment (phdr : Elf64Phdr) (off : Size) (page : Nat) : Prop :=
  (page + 1) * 4096 ≤ segmentStart phdr off ∨ segmentStart phdr off + phdr.pMemsz.toNat ≤ page * 4096

/-- The image of the segment and nothing else. -/
structure SegmentRight (phdr : Elf64Phdr) (off : Size) (file : List (BitVec 8)) (before after : SegmentMem) :
    Prop where
  image : ∀ index < phdr.pFilesz.toNat,
    after.byte (segmentStart phdr off + index) = file.getD (phdr.pOffset.toNat + index) 0
  zeros : ∀ index, phdr.pFilesz.toNat ≤ index → index < phdr.pMemsz.toNat →
    after.byte (segmentStart phdr off + index) = 0
  untouched : ∀ page, MissesSegment phdr off page → after.touched page = false
  kept : ∀ page, MissesSegment phdr off page → after.page page = before.page page ∧
    ∀ addr, addr / 4096 = page → after.byte addr = before.byte addr

def SegmentLoaded (will : LoadWill) (phdr : Elf64Phdr) (off : Size) (file : List (BitVec 8))
    (before : SegmentMem) : Prop :=
  ∀ after, duneElfLoadPh will phdr off file before = .returned 0 after →
    SegmentRight phdr off file before after

/-- The host serves every call of the load. -/
structure LoadServed (will : LoadWill) (phdr : Elf64Phdr) (off : Size) : Prop where
  file : will.file = true
  nonempty : phdr.pFilesz.toNat + phdr.pVaddr.toNat % 4096 ≠ 0
  aligned : off.toNat % 4096 = 0
  fileFits : segmentStart phdr off + phdr.pFilesz.toNat ≤ 2 ^ 47
  anon : phdr.pFilesz.toNat < phdr.pMemsz.toNat → will.anon = true ∧
    (segmentStart phdr off + phdr.pFilesz.toNat + 4095) / 4096 * 4096 +
      (phdr.pMemsz.toNat - phdr.pFilesz.toNat) ≤ 2 ^ 47
  reopened : phdr.pFilesz.toNat < phdr.pMemsz.toNat →
    (segmentStart phdr off + phdr.pFilesz.toNat) % 4096 ≠ 0 →
    segmentProt phdr.pFlags &&& protWrite = 0 → will.unprotect = true ∧ will.reprotect = true

section Arithmetic

variable {phdr : Elf64Phdr} {off : Size} {file : List (BitVec 8)}

theorem pgaddr64_toNat (addr : BitVec 64) : (pgaddr64 addr).toNat = addr.toNat / 4096 * 4096 := by
  have mask : (~~~ 0xfff#64 : BitVec 64).toNat = (2 ^ 52 - 1) * 2 ^ 12 := by decide
  have bound := addr.isLt
  rw [pgaddr64, BitVec.toNat_and, mask, fieldMask_and]
  omega

theorem pgoff64_toNat (addr : BitVec 64) : (pgoff64 addr).toNat = addr.toNat % 4096 := by
  have low : (0xfff#64 : BitVec 64).toNat = 2 ^ 12 - 1 := by decide
  rw [pgoff64, BitVec.toNat_and, low, Nat.and_two_pow_sub_one_eq_mod]

/-- The start and the length of the file mapping. -/
theorem fileMap_toNat (valid : SegmentValid phdr off file) :
    (pgaddr64 phdr.pVaddr + off).toNat = segmentStart phdr off - phdr.pVaddr.toNat % 4096 ∧
      (phdr.pFilesz + pgoff64 phdr.pVaddr).toNat = phdr.pFilesz.toNat + phdr.pVaddr.toNat % 4096 := by
  have inSpace := valid.inSpace
  have sizes := valid.sizes
  rw [segmentStart] at inSpace ⊢
  rw [BitVec.toNat_add_of_lt, BitVec.toNat_add_of_lt, pgaddr64_toNat, pgoff64_toNat]
  · omega
  · rw [pgoff64_toNat]
    omega
  · rw [pgaddr64_toNat]
    omega

theorem fileEnd_toNat (valid : SegmentValid phdr off file) :
    (phdr.pVaddr + phdr.pFilesz + off).toNat = segmentStart phdr off + phdr.pFilesz.toNat := by
  have inSpace := valid.inSpace
  have sizes := valid.sizes
  rw [segmentStart] at inSpace ⊢
  rw [BitVec.toNat_add_of_lt, BitVec.toNat_add_of_lt]
  · omega
  · omega
  · rw [BitVec.toNat_add_of_lt] <;> omega

theorem mapStart_toNat (valid : SegmentValid phdr off file)
    (bound : segmentStart phdr off + phdr.pFilesz.toNat ≤ 2 ^ 47) :
    (pgRound (phdr.pVaddr + phdr.pFilesz + off)).toNat =
      (segmentStart phdr off + phdr.pFilesz.toNat + 4095) / 4096 * 4096 := by
  rw [pgRound_toNat, fileEnd_toNat valid, Nat.mod_eq_of_lt (by omega)]

end Arithmetic

section Clear

variable {mem next : SegmentMem} {will : LoadWill} {prot : BitVec 32} {start mapStart : VirtAddr}

/-- The bytes of the range are 0, and only its page was written. -/
structure Cleared (start stop : Nat) (mem next : SegmentMem) : Prop where
  byte : ∀ addr, next.byte addr = if start ≤ addr ∧ addr < stop then 0 else mem.byte addr
  touched : ∀ page, next.touched page = (decide (start < stop ∧ page = start / 4096) || mem.touched page)
  page : ∀ page, (start < stop → page ≠ start / 4096) → next.page page = mem.page page

theorem protect_some {willing : Bool} {addr : VirtAddr} (changed : mem.protect willing addr prot = some next) :
    willing = true ∧ ∃ page, mem.page (addr.toNat / 4096) = some page ∧
      next = { mem with
        page := Function.update mem.page (addr.toNat / 4096) (some { page with prot := prot }) } := by
  rw [SegmentMem.protect] at changed
  split at changed
  · rename_i page mapped
    obtain ⟨willing, made⟩ := Option.ite_none_right_eq_some.mp changed
    exact ⟨willing, page, mapped, (Option.some.inj made).symm⟩
  · exact nomatch changed

theorem clear_some {first len : Nat} (cleared : mem.clear first len = some next) :
    next = { mem with
      byte := store mem.byte first (List.replicate len 0)
      touched := fun number => number = first / 4096 || mem.touched number } := by
  rw [SegmentMem.clear] at cleared
  split at cleared
  · obtain ⟨_, made⟩ := Option.ite_none_right_eq_some.mp cleared
    exact (Option.some.inj made).symm
  · exact nomatch cleared

theorem store_zeros (bytes : Memory) (first len addr : Nat) :
    store bytes first (List.replicate len 0) addr =
      if first ≤ addr ∧ addr < first + len then 0 else bytes addr := by
  split
  · rename_i inside
    obtain ⟨distance, rfl⟩ := Nat.exists_eq_add_of_le inside.1
    have held : Holds (store bytes first (List.replicate len 0)) first (List.replicate len 0) := store_holds
    rw [held distance (by rw [List.length_replicate]; omega), List.getElem_replicate]
  · rename_i outside
    exact store_frame (by rw [List.length_replicate]; omega)

/-- An `mprotect` that is made only when it is needed. -/
theorem protectIf_some {needed : Prop} [Decidable needed] {willing : Bool} {addr : VirtAddr}
    (changed : (if needed then mem.protect willing addr prot else some mem) = some next) :
    next.byte = mem.byte ∧ next.touched = mem.touched ∧
      (∀ page, page ≠ addr.toNat / 4096 → next.page page = mem.page page) ∧ (needed → willing = true) := by
  by_cases must : needed
  · rw [if_pos must] at changed
    obtain ⟨willing, page, _, rfl⟩ := protect_some changed
    exact ⟨rfl, rfl, fun page other => Function.update_of_ne other _ _, fun _ => willing⟩
  · rw [if_neg must] at changed
    obtain rfl := Option.some.inj changed
    exact ⟨rfl, rfl, fun _ _ => rfl, fun needs => absurd needs must⟩

theorem clearPartial_returned
    (within : start < mapStart → (mapStart - 0x1000).toNat / 4096 = start.toNat / 4096)
    (returned : clearPartial will prot start mapStart mem = .returned 0 next) :
    Cleared start.toNat mapStart.toNat mem next ∧
      (start < mapStart → prot &&& protWrite = 0 → will.unprotect = true ∧ will.reprotect = true) := by
  rw [clearPartial] at returned
  by_cases low : start < mapStart
  · rw [if_pos low] at returned
    have order : start.toNat < mapStart.toNat := low
    split at returned
    · exact nomatch returned
    rename_i opened openedBy
    split at returned
    · exact nomatch returned
    rename_i cleared clearedBy
    split at returned
    · exact nomatch returned
    rename_i closed closedBy
    obtain ⟨_, rfl⟩ := LoadEnd.returned.inj returned
    obtain ⟨openedByte, openedTouched, openedPage, unprotect⟩ := protectIf_some openedBy
    obtain ⟨closedByte, closedTouched, closedPage, reprotect⟩ := protectIf_some closedBy
    obtain rfl := clear_some clearedBy
    rw [within low] at openedPage closedPage
    dsimp only at closedByte closedTouched closedPage
    have len : start.toNat + (mapStart - start).toNat = mapStart.toNat := by
      rw [BitVec.toNat_sub_of_le (BitVec.le_of_lt low)]
      omega
    refine ⟨⟨fun addr => ?_, fun page => ?_, fun page other => ?_⟩, fun _ readOnly => ?_⟩
    · rw [closedByte, store_zeros, len, openedByte]
    · rw [closedTouched, openedTouched]
      simp only [order, true_and]
    · exact (closedPage page (other order)).trans (openedPage page (other order))
    · exact ⟨unprotect readOnly, reprotect readOnly⟩
  · rw [if_neg low] at returned
    obtain ⟨_, rfl⟩ := LoadEnd.returned.inj returned
    have order : mapStart.toNat ≤ start.toNat := Nat.le_of_not_lt low
    refine ⟨⟨fun addr => (if_neg (by omega)).symm, fun page => ?_, fun _ _ => rfl⟩, fun below => absurd below low⟩
    rw [decide_eq_false (by omega), Bool.false_or]

theorem clearPartial_served
    (backed : start < mapStart → mem.page (start.toNat / 4096) = some ⟨prot, false⟩)
    (within : start < mapStart → (mapStart - 0x1000).toNat / 4096 = start.toNat / 4096)
    (reopened : start < mapStart → prot &&& protWrite = 0 → will.unprotect = true ∧ will.reprotect = true) :
    ∃ next, clearPartial will prot start mapStart mem = .returned 0 next := by
  rw [clearPartial]
  by_cases low : start < mapStart
  · have mapped := backed low
    rw [if_pos low]
    by_cases readOnly : prot &&& protWrite = 0
    · obtain ⟨unprotect, reprotect⟩ := reopened low readOnly
      have absorbed : (prot ||| protWrite) &&& protWrite = protWrite := by
        refine BitVec.eq_of_getLsbD_eq fun bit _ => ?_
        rw [BitVec.getLsbD_and, BitVec.getLsbD_or]
        cases prot.getLsbD bit <;> cases protWrite.getLsbD bit <;> rfl
      have writable : decide ((prot ||| protWrite) &&& protWrite ≠ 0) = true := by
        rw [absorbed]
        rfl
      simp only [readOnly, if_true, SegmentMem.protect, within low, mapped, unprotect, reprotect,
        SegmentMem.clear, Function.update_self, writable, Bool.not_false, Bool.and_self]
      exact ⟨_, rfl⟩
    · have writable : decide (prot &&& protWrite ≠ 0) = true := decide_eq_true readOnly
      simp only [readOnly, if_false, SegmentMem.clear, mapped, writable, Bool.not_false, Bool.and_self,
        if_true]
      exact ⟨_, rfl⟩
  · exact ⟨mem, if_neg low⟩

end Clear

section Map

variable {mem next : SegmentMem} {willing : Bool} {addr : VirtAddr} {len offset : Size} {prot : BitVec 32}
  {file : List (BitVec 8)}

theorem map_byte (byte : Nat → BitVec 8) (page : Nat → SegmentPage) (va : Nat) :
    (mem.map addr len byte page).byte va =
      if rangePages addr len (va / 4096) then byte (va - addr.toNat) else mem.byte va := rfl

theorem map_page (byte : Nat → BitVec 8) (page : Nat → SegmentPage) (number : Nat) :
    (mem.map addr len byte page).page number =
      if rangePages addr len number then some (page (number * 4096 - addr.toNat))
      else mem.page number := rfl

theorem map_touched (byte : Nat → BitVec 8) (page : Nat → SegmentPage) (number : Nat) :
    (mem.map addr len byte page).touched number = (rangePages addr len number || mem.touched number) := rfl

theorem fits_iff : (willing && len ≠ 0 && hostFits addr len) = true ↔
    willing = true ∧ len.toNat ≠ 0 ∧ addr.toNat % 4096 = 0 ∧ addr.toNat + len.toNat ≤ 2 ^ 47 := by
  rw [hostFits, Bool.and_eq_true, Bool.and_eq_true, Bool.and_eq_true, decide_eq_true_eq, decide_eq_true_eq,
    decide_eq_true_eq, and_assoc, ne_eq, ← BitVec.toNat_inj]
  rfl

theorem mapFile_some (mapped : mapFile willing addr len prot file offset mem = some next) :
    (willing = true ∧ len.toNat ≠ 0 ∧ addr.toNat % 4096 = 0 ∧ addr.toNat + len.toNat ≤ 2 ^ 47) ∧
      next = mem.map addr len (fun distance => file.getD (offset.toNat + distance) 0)
        fun distance => ⟨prot, file.length ≤ offset.toNat + distance⟩ := by
  obtain ⟨fits, made⟩ := Option.ite_none_right_eq_some.mp mapped
  exact ⟨fits_iff.mp fits, (Option.some.inj made).symm⟩

theorem mapFile_served (willed : willing = true) (nonempty : len.toNat ≠ 0) (aligned : addr.toNat % 4096 = 0)
    (bound : addr.toNat + len.toNat ≤ 2 ^ 47) (mem : SegmentMem) :
    mapFile willing addr len prot file offset mem =
      some (mem.map addr len (fun distance => file.getD (offset.toNat + distance) 0)
        fun distance => ⟨prot, file.length ≤ offset.toNat + distance⟩) :=
  if_pos (fits_iff.mpr ⟨willed, nonempty, aligned, bound⟩)

theorem mapAnon_served (willed : willing = true) (nonempty : len.toNat ≠ 0) (aligned : addr.toNat % 4096 = 0)
    (bound : addr.toNat + len.toNat ≤ 2 ^ 47) (mem : SegmentMem) :
    mapAnon willing addr len prot mem = some (mem.map addr len (fun _ => 0) fun _ => ⟨prot, false⟩) :=
  if_pos (fits_iff.mpr ⟨willed, nonempty, aligned, bound⟩)

theorem mapAnon_some (mapped : mapAnon willing addr len prot mem = some next) :
    (willing = true ∧ len.toNat ≠ 0 ∧ addr.toNat % 4096 = 0 ∧ addr.toNat + len.toNat ≤ 2 ^ 47) ∧
      next = mem.map addr len (fun _ => 0) fun _ => ⟨prot, false⟩ := by
  obtain ⟨fits, made⟩ := Option.ite_none_right_eq_some.mp mapped
  exact ⟨fits_iff.mp fits, (Option.some.inj made).symm⟩

end Map

section Load

variable {will : LoadWill} {phdr : Elf64Phdr} {off : Size} {file : List (BitVec 8)}
  {before after : SegmentMem}

/-- The end of the part that is in the file. -/
def fileEnd (phdr : Elf64Phdr) (off : Size) : Nat := segmentStart phdr off + phdr.pFilesz.toNat

def FilePages (phdr : Elf64Phdr) (off : Size) (page : Nat) : Prop :=
  segmentStart phdr off / 4096 ≤ page ∧ page < (fileEnd phdr off + 4095) / 4096

def AnonPages (phdr : Elf64Phdr) (off : Size) (page : Nat) : Prop :=
  phdr.pFilesz.toNat < phdr.pMemsz.toNat ∧ (fileEnd phdr off + 4095) / 4096 ≤ page ∧
    page < (fileEnd phdr off + 4095) / 4096 + (phdr.pMemsz.toNat - phdr.pFilesz.toNat + 4095) / 4096

/-- What a load leaves. -/
structure LoadedBy (phdr : Elf64Phdr) (off : Size) (file : List (BitVec 8)) (before after : SegmentMem) :
    Prop where
  fileByte : ∀ addr, FilePages phdr off (addr / 4096) → addr < fileEnd phdr off → after.byte addr =
    file.getD (phdr.pOffset.toNat / 4096 * 4096 +
      (addr - segmentStart phdr off / 4096 * 4096)) 0
  zeroByte : ∀ addr, phdr.pFilesz.toNat < phdr.pMemsz.toNat → fileEnd phdr off ≤ addr →
    FilePages phdr off (addr / 4096) ∨ AnonPages phdr off (addr / 4096) → after.byte addr = 0
  touched : ∀ page, after.touched page = true ↔
    FilePages phdr off page ∨ AnonPages phdr off page ∨ before.touched page = true
  kept : ∀ page, ¬ FilePages phdr off page → ¬ AnonPages phdr off page →
    after.page page = before.page page ∧ ∀ addr, addr / 4096 = page → after.byte addr = before.byte addr

theorem rangePages_file (valid : SegmentValid phdr off file) (aligned : off.toNat % 4096 = 0) (page : Nat) :
    rangePages (pgaddr64 phdr.pVaddr + off) (phdr.pFilesz + pgoff64 phdr.pVaddr) page = true ↔
      FilePages phdr off page := by
  obtain ⟨start, len⟩ := fileMap_toNat valid
  have place : segmentStart phdr off = phdr.pVaddr.toNat + off.toNat := rfl
  rw [rangePages, start, len, Bool.and_eq_true, decide_eq_true_eq, decide_eq_true_eq, FilePages, fileEnd]
  omega

theorem rangePages_anon (valid : SegmentValid phdr off file) (bound : fileEnd phdr off ≤ 2 ^ 47)
    (more : phdr.pFilesz.toNat < phdr.pMemsz.toNat) (page : Nat) :
    rangePages (pgRound (phdr.pVaddr + phdr.pFilesz + off)) (phdr.pMemsz - phdr.pFilesz) page = true ↔
      AnonPages phdr off page := by
  have len : (phdr.pMemsz - phdr.pFilesz).toNat = phdr.pMemsz.toNat - phdr.pFilesz.toNat :=
    BitVec.toNat_sub_of_le (Nat.le_of_lt more)
  rw [rangePages, mapStart_toNat valid bound, len, Bool.and_eq_true, decide_eq_true_eq, decide_eq_true_eq,
    AnonPages, ← fileEnd]
  omega

def fileMapped (phdr : Elf64Phdr) (off : Size) (file : List (BitVec 8)) (before : SegmentMem) : SegmentMem :=
  before.map (pgaddr64 phdr.pVaddr + off) (phdr.pFilesz + pgoff64 phdr.pVaddr)
    (fun distance => file.getD ((pgaddr64 phdr.pOffset).toNat + distance) 0)
    fun distance => ⟨segmentProt phdr.pFlags, file.length ≤ (pgaddr64 phdr.pOffset).toNat + distance⟩

theorem fileMapped_byte (valid : SegmentValid phdr off file) (aligned : off.toNat % 4096 = 0) (addr : Nat) :
    (FilePages phdr off (addr / 4096) → (fileMapped phdr off file before).byte addr =
      file.getD (phdr.pOffset.toNat / 4096 * 4096 + (addr - segmentStart phdr off / 4096 * 4096)) 0) ∧
    (¬ FilePages phdr off (addr / 4096) → (fileMapped phdr off file before).byte addr = before.byte addr) := by
  have start : (pgaddr64 phdr.pVaddr + off).toNat = segmentStart phdr off / 4096 * 4096 := by
    have place : segmentStart phdr off = phdr.pVaddr.toNat + off.toNat := rfl
    rw [(fileMap_toNat valid).1]
    omega
  simp only [fileMapped, SegmentMem.map, start, pgaddr64_toNat]
  refine ⟨fun inside => ?_, fun outside => ?_⟩
  · rw [if_pos ((rangePages_file valid aligned _).mpr inside)]
  · rw [if_neg fun inside => outside ((rangePages_file valid aligned _).mp inside)]

theorem fileMapped_touched (valid : SegmentValid phdr off file) (aligned : off.toNat % 4096 = 0) (page : Nat) :
    (fileMapped phdr off file before).touched page = true ↔
      FilePages phdr off page ∨ before.touched page = true := by
  rw [fileMapped, map_touched, Bool.or_eq_true, rangePages_file valid aligned]

theorem fileMapped_page (valid : SegmentValid phdr off file) (aligned : off.toNat % 4096 = 0) {page : Nat}
    (outside : ¬ FilePages phdr off page) : (fileMapped phdr off file before).page page = before.page page :=
  if_neg fun inside => outside ((rangePages_file valid aligned _).mp inside)

theorem loadedBy_file (valid : SegmentValid phdr off file) (aligned : off.toNat % 4096 = 0)
    (whole : ¬ phdr.pFilesz.toNat < phdr.pMemsz.toNat) :
    LoadedBy phdr off file before (fileMapped phdr off file before) where
  fileByte := fun addr inside _ => (fileMapped_byte valid aligned addr).1 inside
  zeroByte := fun _ more => absurd more whole
  touched := fun page => by
    rw [fileMapped_touched valid aligned]
    exact or_congr_right ⟨.inr, fun either => either.elim (fun anon => absurd anon.1 whole) id⟩
  kept := fun page outside _ => ⟨fileMapped_page valid aligned outside,
    fun addr here => (fileMapped_byte valid aligned addr).2 (here ▸ outside)⟩

theorem loadedBy_parts (valid : SegmentValid phdr off file) (aligned : off.toNat % 4096 = 0)
    (bound : fileEnd phdr off ≤ 2 ^ 47) (more : phdr.pFilesz.toNat < phdr.pMemsz.toNat) {middle : SegmentMem}
    (cleared : Cleared (fileEnd phdr off) ((fileEnd phdr off + 4095) / 4096 * 4096)
      (fileMapped phdr off file before) middle) :
    LoadedBy phdr off file before
      (middle.map (pgRound (phdr.pVaddr + phdr.pFilesz + off)) (phdr.pMemsz - phdr.pFilesz) (fun _ => 0)
        fun _ => ⟨segmentProt phdr.pFlags, false⟩) where
  fileByte := fun addr inside early => by
    have notAnon : ¬ AnonPages phdr off (addr / 4096) := fun anon => by
      have first := anon.2.1
      omega
    rw [map_byte, if_neg fun anon => notAnon ((rangePages_anon valid bound more _).mp anon),
      cleared.byte, if_neg (by omega)]
    exact (fileMapped_byte valid aligned addr).1 inside
  zeroByte := fun addr _ late either => by
    by_cases anon : AnonPages phdr off (addr / 4096)
    · exact if_pos ((rangePages_anon valid bound more _).mpr anon)
    · have inFile := (either.resolve_right anon).2
      rw [map_byte, if_neg fun inside => anon ((rangePages_anon valid bound more _).mp inside),
        cleared.byte, if_pos (by omega)]
  touched := fun page => by
    have place : segmentStart phdr off ≤ fileEnd phdr off := Nat.le_add_right _ _
    have own : fileEnd phdr off < (fileEnd phdr off + 4095) / 4096 * 4096 ∧ page = fileEnd phdr off / 4096 →
        FilePages phdr off page := fun ⟨low, here⟩ => by
      rw [FilePages]
      omega
    rw [map_touched, Bool.or_eq_true, rangePages_anon valid bound more, cleared.touched, Bool.or_eq_true,
      decide_eq_true_eq, fileMapped_touched valid aligned]
    tauto
  kept := fun page outside notAnon => by
    have place : segmentStart phdr off ≤ fileEnd phdr off := Nat.le_add_right _ _
    have missed (low : fileEnd phdr off < (fileEnd phdr off + 4095) / 4096 * 4096) :
        page ≠ fileEnd phdr off / 4096 := fun here => outside (by
      rw [FilePages]
      omega)
    have notMapped : ¬ rangePages (pgRound (phdr.pVaddr + phdr.pFilesz + off)) (phdr.pMemsz - phdr.pFilesz)
        page = true := fun inside => notAnon ((rangePages_anon valid bound more _).mp inside)
    refine ⟨?_, fun addr here => ?_⟩
    · rw [map_page, if_neg notMapped, cleared.page page missed]
      exact fileMapped_page valid aligned outside
    · subst here
      rw [map_byte, if_neg notMapped, cleared.byte, if_neg (by omega)]
      exact (fileMapped_byte valid aligned addr).2 outside

/-- The page of the bits that are not page aligned. -/
theorem partial_within (valid : SegmentValid phdr off file) (bound : fileEnd phdr off ≤ 2 ^ 47)
    (low : phdr.pVaddr + phdr.pFilesz + off < pgRound (phdr.pVaddr + phdr.pFilesz + off)) :
    (pgRound (phdr.pVaddr + phdr.pFilesz + off) - 0x1000).toNat / 4096 =
      (phdr.pVaddr + phdr.pFilesz + off).toNat / 4096 := by
  have order : (phdr.pVaddr + phdr.pFilesz + off).toNat <
    (pgRound (phdr.pVaddr + phdr.pFilesz + off)).toNat := low
  have page : (0x1000 : VirtAddr).toNat = 4096 := rfl
  have above : (0x1000 : VirtAddr) ≤ pgRound (phdr.pVaddr + phdr.pFilesz + off) := by
    rw [BitVec.le_def, page]
    rw [mapStart_toNat valid bound] at order ⊢
    omega
  rw [fileEnd_toNat valid, mapStart_toNat valid bound] at order
  rw [BitVec.toNat_sub_of_le above, page, mapStart_toNat valid bound, fileEnd_toNat valid]
  omega

theorem partial_low (valid : SegmentValid phdr off file) (bound : fileEnd phdr off ≤ 2 ^ 47) :
    phdr.pVaddr + phdr.pFilesz + off < pgRound (phdr.pVaddr + phdr.pFilesz + off) ↔
      fileEnd phdr off % 4096 ≠ 0 := by
  rw [BitVec.lt_def, mapStart_toNat valid bound, fileEnd_toNat valid, ← fileEnd]
  omega

theorem duneElfLoadPh_returned (valid : SegmentValid phdr off file)
    (returned : duneElfLoadPh will phdr off file before = .returned 0 after) :
    LoadServed will phdr off ∧ LoadedBy phdr off file before after := by
  obtain ⟨fileStart, fileLen⟩ := fileMap_toNat valid
  have sizes : ¬ phdr.pMemsz < phdr.pFilesz := Nat.not_lt.mpr valid.sizes
  have place : segmentStart phdr off = phdr.pVaddr.toNat + off.toNat := rfl
  simp only [duneElfLoadPh, valid.load, ne_eq, not_true_eq_false, if_false, if_neg sizes] at returned
  split at returned
  · exact nomatch returned
  rename_i mapped mappedBy
  obtain ⟨⟨willing, nonempty, baseAligned, fits⟩, rfl⟩ := mapFile_some mappedBy
  rw [fileStart] at baseAligned fits
  rw [fileLen] at nonempty fits
  have aligned : off.toNat % 4096 = 0 := by omega
  have bound : fileEnd phdr off ≤ 2 ^ 47 := by
    rw [fileEnd]
    omega
  by_cases more : phdr.pFilesz < phdr.pMemsz
  · rw [if_pos more] at returned
    have moreNat : phdr.pFilesz.toNat < phdr.pMemsz.toNat := more
    split at returned
    · rename_i middle clearedBy
      split at returned
      · exact nomatch returned
      rename_i anonBy
      obtain ⟨_, rfl⟩ := LoadEnd.returned.inj returned
      obtain ⟨⟨anon, _, _, anonFits⟩, rfl⟩ := mapAnon_some anonBy
      obtain ⟨cleared, reopened⟩ := clearPartial_returned (partial_within valid bound) clearedBy
      rw [mapStart_toNat valid bound, BitVec.toNat_sub_of_le (BitVec.le_of_lt more)] at anonFits
      rw [fileEnd_toNat valid, mapStart_toNat valid bound] at cleared
      refine ⟨⟨willing, nonempty, aligned, bound, fun _ => ⟨anon, anonFits⟩, fun _ low readOnly => ?_⟩,
        loadedBy_parts valid aligned bound moreNat cleared⟩
      exact reopened ((partial_low valid bound).mpr low) readOnly
    · rename_i other
      exact absurd returned (other _)
  · rw [if_neg more] at returned
    obtain ⟨_, rfl⟩ := LoadEnd.returned.inj returned
    have whole : ¬ phdr.pFilesz.toNat < phdr.pMemsz.toNat := more
    exact ⟨⟨willing, nonempty, aligned, bound, fun less => absurd less whole, fun less => absurd less whole⟩,
      loadedBy_file valid aligned whole⟩

/-- The file has the page of the bits that are not page aligned. -/
theorem partial_backed (valid : SegmentValid phdr off file) (aligned : off.toNat % 4096 = 0)
    (low : fileEnd phdr off % 4096 ≠ 0) :
    (fileMapped phdr off file before).page (fileEnd phdr off / 4096) =
      some ⟨segmentProt phdr.pFlags, false⟩ := by
  have place : segmentStart phdr off = phdr.pVaddr.toNat + off.toNat := rfl
  have last : fileEnd phdr off = segmentStart phdr off + phdr.pFilesz.toNat := rfl
  have covered := valid.covered
  have congruent := valid.congruent
  have inside : FilePages phdr off (fileEnd phdr off / 4096) := by
    rw [FilePages]
    omega
  rw [fileMapped, map_page, if_pos ((rangePages_file valid aligned _).mpr inside), (fileMap_toNat valid).1,
    pgaddr64_toNat, decide_eq_false (by omega)]

theorem duneElfLoadPh_served (valid : SegmentValid phdr off file) (served : LoadServed will phdr off)
    (before : SegmentMem) : ∃ after, duneElfLoadPh will phdr off file before = .returned 0 after := by
  obtain ⟨fileStart, fileLen⟩ := fileMap_toNat valid
  have sizes : ¬ phdr.pMemsz < phdr.pFilesz := Nat.not_lt.mpr valid.sizes
  have place : segmentStart phdr off = phdr.pVaddr.toNat + off.toNat := rfl
  have aligned := served.aligned
  have bound : fileEnd phdr off ≤ 2 ^ 47 := served.fileFits
  have fileBound := served.fileFits
  have mapped : mapFile will.file (pgaddr64 phdr.pVaddr + off) (phdr.pFilesz + pgoff64 phdr.pVaddr)
      (segmentProt phdr.pFlags) file (pgaddr64 phdr.pOffset) before = some (fileMapped phdr off file before) := by
    refine mapFile_served served.file ?_ ?_ ?_ before
    · rw [fileLen]
      exact served.nonempty
    · omega
    · omega
  simp only [duneElfLoadPh, valid.load, ne_eq, not_true_eq_false, if_false, if_neg sizes, mapped]
  by_cases more : phdr.pFilesz < phdr.pMemsz
  · have moreNat : phdr.pFilesz.toNat < phdr.pMemsz.toNat := more
    have zeroLen : (phdr.pMemsz - phdr.pFilesz).toNat = phdr.pMemsz.toNat - phdr.pFilesz.toNat :=
      BitVec.toNat_sub_of_le (BitVec.le_of_lt more)
    have backed (low : phdr.pVaddr + phdr.pFilesz + off < pgRound (phdr.pVaddr + phdr.pFilesz + off)) :
        (fileMapped phdr off file before).page ((phdr.pVaddr + phdr.pFilesz + off).toNat / 4096) =
          some ⟨segmentProt phdr.pFlags, false⟩ := by
      rw [fileEnd_toNat valid]
      exact partial_backed valid aligned ((partial_low valid bound).mp low)
    obtain ⟨middle, cleared⟩ := clearPartial_served backed (partial_within valid bound) fun low =>
      served.reopened moreNat ((partial_low valid bound).mp low)
    obtain ⟨anon, anonFits⟩ := served.anon moreNat
    obtain ⟨last, zeros⟩ : ∃ last, mapAnon will.anon (pgRound (phdr.pVaddr + phdr.pFilesz + off))
        (phdr.pMemsz - phdr.pFilesz) (segmentProt phdr.pFlags) middle = some last := by
      refine ⟨_, mapAnon_served anon ?_ ?_ ?_ middle⟩
      · omega
      · rw [mapStart_toNat valid bound]
        exact Nat.mul_mod_left _ _
      · rw [mapStart_toNat valid bound, zeroLen]
        exact anonFits
    simp only [if_pos more, cleared, zeros]
    exact ⟨last, rfl⟩
  · exact ⟨_, if_neg more⟩

/-- The zeros take as many pages from the first page of their own on as the segment has left. -/
def ZeroPagesFit (phdr : Elf64Phdr) (off : Size) : Prop :=
  phdr.pFilesz.toNat < phdr.pMemsz.toNat →
    (segmentStart phdr off + phdr.pFilesz.toNat + 4095) / 4096 +
        (phdr.pMemsz.toNat - phdr.pFilesz.toNat + 4095) / 4096 =
      (segmentStart phdr off + phdr.pMemsz.toNat + 4095) / 4096

theorem missed_pages (valid : SegmentValid phdr off file) (fit : ZeroPagesFit phdr off) {page : Nat}
    (missed : MissesSegment phdr off page) : ¬ FilePages phdr off page ∧ ¬ AnonPages phdr off page := by
  have sizes := valid.sizes
  have last : fileEnd phdr off = segmentStart phdr off + phdr.pFilesz.toNat := rfl
  rw [MissesSegment] at missed
  refine ⟨fun ⟨first, beyond⟩ => by omega, fun ⟨more, first, beyond⟩ => ?_⟩
  have pages := fit more
  rw [← last] at pages
  omega

theorem LoadedBy.right (valid : SegmentValid phdr off file) (fresh : ∀ page, before.touched page = false)
    (aligned : off.toNat % 4096 = 0) (loaded : LoadedBy phdr off file before after)
    (fit : ZeroPagesFit phdr off) : SegmentRight phdr off file before after where
  image := fun index inFile => by
    have congruent := valid.congruent
    have place : segmentStart phdr off = phdr.pVaddr.toNat + off.toNat := rfl
    have last : fileEnd phdr off = segmentStart phdr off + phdr.pFilesz.toNat := rfl
    rw [loaded.fileByte _ (by rw [FilePages]; omega) (by omega)]
    congr 1
    omega
  zeros := fun index beyond inMem => by
    have last : fileEnd phdr off = segmentStart phdr off + phdr.pFilesz.toNat := rfl
    refine loaded.zeroByte _ (by omega) (by omega) ?_
    rw [FilePages, AnonPages]
    omega
  untouched := fun page missed => by
    obtain ⟨notFile, notAnon⟩ := missed_pages valid fit missed
    refine Bool.eq_false_iff.mpr fun touched => ?_
    rcases (loaded.touched page).mp touched with inFile | anon | earlier
    · exact notFile inFile
    · exact notAnon anon
    · exact nomatch (fresh page).symm.trans earlier
  kept := fun page missed => by
    obtain ⟨notFile, notAnon⟩ := missed_pages valid fit missed
    exact loaded.kept page notFile notAnon

theorem LoadedBy.fit (loaded : LoadedBy phdr off file before after)
    (right : SegmentRight phdr off file before after) : ZeroPagesFit phdr off := by
  intro more
  have last : fileEnd phdr off = segmentStart phdr off + phdr.pFilesz.toNat := rfl
  by_contra differ
  -- The first page after the segment is mapped.
  have missed : MissesSegment phdr off ((segmentStart phdr off + phdr.pMemsz.toNat + 4095) / 4096) :=
    .inr (by omega)
  have anon : AnonPages phdr off ((segmentStart phdr off + phdr.pMemsz.toNat + 4095) / 4096) := by
    rw [AnonPages]
    omega
  have touched := (loaded.touched _).mpr (.inr (.inl anon))
  exact nomatch (right.untouched _ missed).symm.trans touched

theorem SegmentLoaded.fit (valid : SegmentValid phdr off file) (served : LoadServed will phdr off)
    (right : SegmentLoaded will phdr off file before) : ZeroPagesFit phdr off := by
  obtain ⟨after, returned⟩ := duneElfLoadPh_served valid served before
  exact (duneElfLoadPh_returned valid returned).2.fit (right after returned)

/-- A load that the host serves is right exactly when the length of the zeros, which is not
recomputed after their start is rounded up, takes no page more than the segment has. -/
theorem segment_loaded_iff (valid : SegmentValid phdr off file) (fresh : ∀ page, before.touched page = false) :
    SegmentLoaded will phdr off file before ↔ (LoadServed will phdr off → ZeroPagesFit phdr off) := by
  refine ⟨fun right served => right.fit valid served, fun fits after returned => ?_⟩
  obtain ⟨served, loaded⟩ := duneElfLoadPh_returned valid returned
  exact loaded.right valid fresh served.aligned (fits served)

end Load

def emptyMem : SegmentMem := ⟨fun _ => 0, fun _ => none, fun _ => false⟩

def allServed : LoadWill := ⟨true, true, true, true⟩

/-- One page from the file and half a page of zeros. -/
def pagePhdr : Elf64Phdr := ⟨ptLoad, pfR ||| pfW, 0, 0x400000, 0x1000, 0x1800⟩

theorem segment_loaded_page :
    SegmentLoaded allServed pagePhdr 0 (List.replicate 4096 0x90) emptyMem := by
  have valid : SegmentValid pagePhdr 0 (List.replicate 4096 0x90) :=
    ⟨rfl, by decide, by decide, rfl, by decide, by rw [List.length_replicate]; decide⟩
  exact (segment_loaded_iff valid fun _ => rfl).mpr fun _ _ => rfl

/-- 32 bytes from the file and 32 of zeros, all in one page. -/
def smallPhdr : Elf64Phdr := ⟨ptLoad, pfR ||| pfW, 0x10, 0x400010, 0x20, 0x40⟩

/-- The page after the segment is mapped too. -/
theorem small_bss_maps_next_page :
    ¬ SegmentLoaded allServed smallPhdr 0 (List.replicate 48 0x90) emptyMem := by
  intro right
  have valid : SegmentValid smallPhdr 0 (List.replicate 48 0x90) :=
    ⟨rfl, by decide, by decide, rfl, by decide, by rw [List.length_replicate]; decide⟩
  have served : LoadServed allServed smallPhdr 0 :=
    ⟨rfl, by decide, rfl, by decide, fun _ => ⟨rfl, by decide⟩, fun _ _ _ => ⟨rfl, rfl⟩⟩
  exact absurd (right.fit valid served (by decide)) (by decide)

end RdmaPaging
