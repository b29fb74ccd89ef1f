import RdmaPaging.ElfImage

/-!
What a run over the sections of an image reads, and which names reach the callback. The offsets and sizes
of the image are cut to an `int` on the way.
-/

namespace RdmaPaging

open ByteMemory

/-! Names in a table. -/

section Names

variable {mem other : Memory} {start strtablen : Nat}

theorem strnlen_eq_max (max : Nat) :
    strnlen mem start max = max ↔ ∀ place, start ≤ place → place < start + max → mem place ≠ 0 := by
  induction max generalizing start with
  | zero => exact ⟨fun _ place first last => by omega, fun _ => rfl⟩
  | succ max ih =>
      rw [strnlen]
      split
      next ends =>
        refine ⟨fun same => absurd same (by omega), fun long => ?_⟩
        exact absurd ends (long start (Nat.le_refl _) (by omega))
      next more =>
        rw [Nat.add_right_cancel_iff, ih]
        constructor
        · intro rest place first last
          by_cases same : place = start
          · rwa [same]
          · exact rest place (by omega) (by omega)
        · exact fun long place first last => long place (by omega) (by omega)

/-- The name has its end in the table, soon enough. -/
def NameEnds (strtab : Memory) (strtablen start : Nat) : Prop :=
  ∃ last, start ≤ last ∧ last < start + maxSname ∧ last < strtablen ∧ strtab last = 0

/-- The name is too long, and all that tells so is in the table. -/
def NameLong (strtab : Memory) (strtablen start : Nat) : Prop :=
  start + maxSname ≤ strtablen ∧ ∀ place, start ≤ place → place < start + maxSname → strtab place ≠ 0

theorem NameEnds.congr (ends : NameEnds mem strtablen start)
    (same : ∀ place, place < strtablen → mem place = other place) : NameEnds other strtablen start := by
  obtain ⟨last, first, soon, inside, zero⟩ := ends
  exact ⟨last, first, soon, inside, (same last inside).symm.trans zero⟩

theorem NameLong.congr (long : NameLong mem strtablen start)
    (same : ∀ place, place < strtablen → mem place = other place) : NameLong other strtablen start :=
  ⟨long.1, fun place first last => (same place (by have := long.1; omega)) ▸ long.2 place first last⟩

theorem NameEnds.short (ends : NameEnds mem strtablen start) : strnlen mem start maxSname ≠ maxSname := by
  intro long
  obtain ⟨last, first, soon, inside, zero⟩ := ends
  exact (strnlen_eq_max maxSname).mp long last first soon zero

theorem NameLong.max (long : NameLong mem strtablen start) : strnlen mem start maxSname = maxSname :=
  (strnlen_eq_max maxSname).mpr long.2

theorem nameEnds_of_contained {image : ElfImage} (short : strnlen mem start maxSname ≠ maxSname)
    (inside : ElfAccess.Contained image (.name mem strtablen start)) : NameEnds mem strtablen start := by
  obtain ⟨last, first, below, zero⟩ := inside
  have ends := mt (strnlen_eq_max maxSname).mpr short
  push Not at ends
  obtain ⟨place, low, high, null⟩ := ends
  obtain soon | late := Nat.lt_or_ge last (start + maxSname)
  · exact ⟨last, first, soon, below, zero⟩
  · exact ⟨place, low, high, by omega, null⟩

/-- With zeros behind the table only the table can make a name too long. -/
theorem nameLong_of_zeros (zeros : ∀ place, strtablen ≤ place → mem place = 0)
    (long : strnlen mem start maxSname = maxSname) : NameLong mem strtablen start := by
  have all := (strnlen_eq_max maxSname).mp long
  refine ⟨?_, all⟩
  by_contra short
  exact all (start + maxSname - 1) (by rw [maxSname]; omega) (by rw [maxSname]; omega)
    (zeros _ (by rw [maxSname] at short ⊢; omega))

end Names

/-! The loop. -/

theorem ElfRun.forall_andThen {α β : Type} {good : ElfAccess → Prop} (run : ElfRun α) (next : α → ElfRun β) :
    (∀ access ∈ (run.andThen next).1, good access) ↔ (∀ access ∈ run.1, good access) ∧
      ∀ value, run.2 = .ok value → ∀ access ∈ (next value).1, good access := by
  obtain ⟨accesses, code | value⟩ := run
  · exact ⟨fun all => ⟨all, fun value bad => nomatch bad⟩, fun all => all.1⟩
  · rw [ElfRun.andThen, List.forall_mem_append]
    exact and_congr_right fun _ => ⟨fun all _ same => Except.ok.inj same ▸ all, fun all => all _ rfl⟩

def ElfTables.sname (tables : ElfTables) (index : Nat) : Nat := (shdrOf tables.shdr (64 * index)).shName

def ElfTables.Ends (tables : ElfTables) (index : Nat) : Prop :=
  NameEnds tables.shdrstr tables.strtablen (tables.sname index)

def ElfTables.Long (tables : ElfTables) (index : Nat) : Prop :=
  NameLong tables.shdrstr tables.strtablen (tables.sname index)

/-- The names of some sections end in the table, up to the first that is too long. -/
def ElfTables.NamesFine (tables : ElfTables) (first count : Nat) : Prop :=
  ∀ index, first ≤ index → index < first + count →
    tables.Ends index ∨ ∃ earlier, first ≤ earlier ∧ earlier ≤ index ∧ tables.Long earlier

section Loop

variable {host : ElfHost} {image : ElfImage} {tables : ElfTables} {shnum left index : Nat}

theorem ElfTables.NamesFine.next (fine : tables.NamesFine index (left + 1)) (short : ¬ tables.Long index) :
    tables.Ends index ∧ tables.NamesFine (index + 1) left := by
  refine ⟨?_, fun later first last => ?_⟩
  · obtain ends | ⟨earlier, notBefore, upTo, long⟩ := fine index (Nat.le_refl _) (by omega)
    · exact ends
    · obtain rfl : earlier = index := by omega
      exact absurd long short
  · obtain ends | ⟨earlier, notBefore, upTo, long⟩ := fine later (by omega) (by omega)
    · exact .inl ends
    · have other : earlier ≠ index := fun same => short (same ▸ long)
      exact .inr ⟨earlier, by omega, upTo, long⟩

/-- One turn, with the name that it meets. -/
theorem iterShFrom_turn (host : ElfHost) (shnum : Nat) (tables : ElfTables) (left index : Nat) :
    iterShFrom host shnum tables (left + 1) index =
      if strnlen tables.shdrstr (tables.sname index) maxSname = maxSname then
        ([.header shnum index], .error (-ummEinval))
      else
        let met := [.header shnum index, .name tables.shdrstr tables.strtablen (tables.sname index)]
        if host.cb index ≠ 0 then (met, .ok (host.cb index))
        else
          let rest := iterShFrom host shnum tables left (index + 1)
          (met ++ rest.1, rest.2) := by
  rw [iterShFrom, readShdr, ElfRun.andThen, ElfTables.sname]
  split
  · rfl
  · rw [ElfRun.andThen]
    split <;> rfl

theorem iterShFrom_contained (within : index + left ≤ shnum) (fine : tables.NamesFine index left) :
    ∀ access ∈ (iterShFrom host shnum tables left index).1, access.Contained image := by
  induction left generalizing index with
  | zero => exact fun access member => absurd member List.not_mem_nil
  | succ left ih =>
      have header : ElfAccess.Contained image (.header shnum index) := by
        rw [ElfAccess.Contained]
        omega
      rw [iterShFrom_turn]
      split
      next long => rwa [List.forall_mem_singleton]
      next short =>
        obtain ⟨ends, rest⟩ := fine.next fun long => short long.max
        have name : ElfAccess.Contained image
            (.name tables.shdrstr tables.strtablen (tables.sname index)) := by
          obtain ⟨last, low, soon, inside, zero⟩ := ends
          exact ⟨last, low, inside, zero⟩
        have met : ∀ access ∈ [.header shnum index,
            .name tables.shdrstr tables.strtablen (tables.sname index)],
            ElfAccess.Contained image access := by
          rw [List.forall_mem_cons, List.forall_mem_singleton]
          exact ⟨header, name⟩
        split
        · exact met
        · exact List.forall_mem_append.mpr ⟨met, ih (by omega) rest⟩

/-- With a callback that goes on and zeros behind the table, what the loop hands out tells the names. -/
theorem iterShFrom_names (goes : ∀ index, host.cb index = 0)
    (zeros : ∀ place, tables.strtablen ≤ place → tables.shdrstr place = 0)
    (contained : ∀ access ∈ (iterShFrom host shnum tables left index).1, access.Contained image) :
    tables.NamesFine index left := by
  induction left generalizing index with
  | zero => exact fun later first last => by omega
  | succ left ih =>
      rw [iterShFrom_turn] at contained
      split at contained
      next long =>
        exact fun later first last => .inr ⟨index, Nat.le_refl _, first, nameLong_of_zeros zeros long⟩
      next short =>
        rw [if_neg (not_not_intro (goes index)), List.forall_mem_append, List.forall_mem_cons,
          List.forall_mem_singleton] at contained
        obtain ⟨⟨header, name⟩, rest⟩ := contained
        intro later first last
        by_cases same : later = index
        · exact .inl (same ▸ nameEnds_of_contained short name)
        · exact (ih rest later (by omega) (by omega)).imp_right fun ⟨earlier, low, upTo, long⟩ =>
            ⟨earlier, by omega, upTo, long⟩

theorem iterShFrom_long (long : tables.Long index) :
    (iterShFrom host shnum tables (left + 1) index).2 = .error (-ummEinval) := by
  rw [iterShFrom_turn, if_pos long.max]

theorem iterShFrom_error {code : Int} (refused : (iterShFrom host shnum tables left index).2 = .error code) :
    code < 0 := by
  induction left generalizing index with
  | zero => exact nomatch refused
  | succ left ih =>
      rw [iterShFrom_turn] at refused
      split at refused
      next long => exact Except.error.inj refused ▸ by decide
      next short =>
        split at refused
        · exact nomatch refused
        · exact ih refused

/-- With a callback that ends the loop, only the first name can be refused. -/
theorem long_of_refused (ends : 0 < host.cb index)
    (zeros : ∀ place, tables.strtablen ≤ place → tables.shdrstr place = 0)
    (refused : returned (iterShFrom host shnum tables (left + 1) index).2 < 0) : tables.Long index := by
  rw [iterShFrom_turn] at refused
  split at refused
  next long => exact nameLong_of_zeros zeros long
  next short =>
    rw [if_pos (by omega)] at refused
    exact absurd (show host.cb index < 0 from refused) (by omega)

end Loop

/-! Reading the same bytes. -/

section Same

variable {mem other : Memory} {start : Nat}

theorem ehdrOf_congr (same : ∀ addr, addr < 64 → mem addr = other addr) : ehdrOf mem = ehdrOf other := by
  have field : ∀ start width, start + width ≤ 64 → loadLe mem start width = loadLe other start width :=
    fun start width within => loadLe_congr width fun addr first last => same addr (by omega)
  simp only [ehdrOf, Elf64Ehdr.mk.injEq]
  refine ⟨List.map_congr_left fun index member => same index ?_, field _ _ (by omega), field _ _ (by omega),
    field _ _ (by omega), field _ _ (by omega), field _ _ (by omega), field _ _ (by omega)⟩
  have := List.mem_range.mp member
  omega

theorem shdrOf_congr (same : ∀ addr, start ≤ addr → addr < start + 64 → mem addr = other addr) :
    shdrOf mem start = shdrOf other start := by
  have field : ∀ place width, start ≤ place → place + width ≤ start + 64 →
      loadLe mem place width = loadLe other place width :=
    fun place width low high => loadLe_congr width fun addr first last => same addr (by omega) (by omega)
  simp only [shdrOf, Elf64Shdr.mk.injEq]
  exact ⟨field _ _ (by omega) (by omega), field _ _ (by omega) (by omega), field _ _ (by omega) (by omega),
    field _ _ (by omega) (by omega)⟩

/-- Tables with the same headers and the same names. -/
structure ElfTables.Agrees (tables other : ElfTables) (shnum : Nat) : Prop where
  len : tables.strtablen = other.strtablen
  headers : ∀ addr, addr < shnum * 64 → tables.shdr addr = other.shdr addr
  names : ∀ place, place < tables.strtablen → tables.shdrstr place = other.shdrstr place

section Agrees

variable {tables other : ElfTables} {shnum index : Nat}

theorem ElfTables.Agrees.symm (same : tables.Agrees other shnum) : other.Agrees tables shnum :=
  ⟨same.len.symm, fun addr below => (same.headers addr below).symm,
    fun place below => (same.names place (same.len ▸ below)).symm⟩

theorem ElfTables.Agrees.sname (same : tables.Agrees other shnum) (counted : index < shnum) :
    tables.sname index = other.sname index := by
  rw [ElfTables.sname, ElfTables.sname, shdrOf_congr fun addr low high => same.headers addr (by omega)]

theorem ElfTables.Ends.congr (ends : tables.Ends index) (same : tables.Agrees other shnum)
    (counted : index < shnum) : other.Ends index := by
  rw [ElfTables.Ends, ← same.sname counted, ← same.len]
  exact NameEnds.congr ends same.names

theorem ElfTables.Long.congr (long : tables.Long index) (same : tables.Agrees other shnum)
    (counted : index < shnum) : other.Long index := by
  rw [ElfTables.Long, ← same.sname counted, ← same.len]
  exact NameLong.congr long same.names

theorem ElfTables.NamesFine.congr (fine : tables.NamesFine 0 shnum) (same : tables.Agrees other shnum) :
    other.NamesFine 0 shnum := by
  intro index low high
  rw [Nat.zero_add] at high
  obtain ends | ⟨earlier, notBefore, upTo, long⟩ := fine index low (by omega)
  · exact .inl (ends.congr same high)
  · exact .inr ⟨earlier, notBefore, upTo, long.congr same (by omega)⟩

end Agrees

end Same

/-! Images on which every run is as it should be. -/

/-- The bytes from an `int` offset on. -/
def ElfImage.bytesFrom (image : ElfImage) (off : Int) : Memory := fun index => image.byte (off.toNat + index)

/-- `do_elf_open` accepts the header. -/
structure ElfImage.Opens (image : ElfImage) : Prop where
  long : 64 ≤ image.len
  ident : (ehdrOf image.byte).eIdent.take 7 = elfIdent
  version : (ehdrOf image.byte).eVersion = evCurrent
  machine : (ehdrOf image.byte).eMachine = emX8664

/-- The section headers that a full read takes from the image. -/
def ElfImage.shdrs (image : ElfImage) : Memory := image.bytesFrom (intOf (ehdrOf image.byte).eShoff)

/-- The section header of the table of the names. -/
def ElfImage.strHeader (image : ElfImage) : Elf64Shdr :=
  shdrOf image.shdrs (64 * (ehdrOf image.byte).eShstrndx)

def ElfImage.tables (image : ElfImage) : ElfTables where
  shdr := image.shdrs
  shdrstr := image.bytesFrom (intOf image.strHeader.shOffset)
  strtablen := image.strHeader.shSize

/-- The offsets of the tables are not cut. An empty table has no bytes to miss. -/
def ElfImage.OffsetsFit (image : ElfImage) : Prop :=
  (ehdrOf image.byte).eShoff < 2 ^ 31 ∧ (image.strHeader.shSize = 0 ∨ image.strHeader.shOffset < 2 ^ 31)

/-- A table of names is not read outside the image. When it is read in full its names are as the loop needs
them, and unless the loop refuses the first of them no offset is cut. -/
def ElfImage.StringsFine (image : ElfImage) : Prop :=
  let str := image.strHeader
  str.shType ≠ shtStrtab ∨ 2 ^ 63 ≤ str.shSize ∨
    (image.ReadInside (intOf str.shSize) (intOf str.shOffset) ∧
      (image.ReadFull str.shSize (intOf str.shOffset) →
        image.tables.NamesFine 0 (ehdrOf image.byte).eShnum ∧ (image.OffsetsFit ∨ image.tables.Long 0)))

def ElfImage.Fine (image : ElfImage) : Prop :=
  let hdr := ehdrOf image.byte
  ¬ image.Opens ∨ hdr.eShentsize ≠ 64 ∨ maxShnum < hdr.eShnum ∨
    (image.ReadInside (intOf (hdr.eShnum * 64 : Nat)) (intOf hdr.eShoff) ∧
      (image.ReadFull (hdr.eShnum * 64) (intOf hdr.eShoff) →
        hdr.eShnum < hdr.eShstrndx ∨ (hdr.eShstrndx < hdr.eShnum ∧ image.StringsFine)))

section Runs

variable {host : ElfHost} {image : ElfImage} {α β : Type}

@[simp] theorem ElfRead.check_accesses (read : ElfRead) (result : ElfRead → Except Int α) :
    (read.check result).1 = read.accesses := rfl

@[simp] theorem ElfRead.check_result (read : ElfRead) (result : ElfRead → Except Int α) :
    (read.check result).2 = result read := rfl

/-- All accesses are as they should be, an error is negative, and a result is good. -/
structure ElfRun.Meets (run : ElfRun α) (image : ElfImage) (good : α → Prop) : Prop where
  contained : ∀ access ∈ run.1, access.Contained image
  negative : ∀ code, run.2 = .error code → code < 0
  result : ∀ value, run.2 = .ok value → good value

theorem ElfRun.Meets.andThen (good : α → Prop) {fine : β → Prop} {run : ElfRun α} {next : α → ElfRun β}
    (first : run.Meets image good) (after : ∀ value, good value → (next value).Meets image fine) :
    (run.andThen next).Meets image fine := by
  have contained := (run.forall_andThen next).mpr
    ⟨first.contained, fun value same => (after value (first.result value same)).contained⟩
  obtain ⟨accesses, code | value⟩ := run
  · refine ⟨contained, fun other same => ?_, fun value bad => nomatch bad⟩
    exact first.negative _ (Except.error.inj same ▸ rfl)
  · have met := after value (first.result value rfl)
    exact ⟨contained, met.negative, met.result⟩

theorem ElfRun.refused {code : Int} {good : α → Prop} (negative : code < 0) :
    ElfRun.Meets ([], .error code) image good :=
  ⟨fun _ member => absurd member List.not_mem_nil, fun _ same => Except.error.inj same ▸ negative,
    fun _ bad => nomatch bad⟩

theorem intOf_header : intOf (64 : Nat) = 64 := intOf_small (by decide) (by decide)

theorem headerInside (image : ElfImage) : image.ReadInside (intOf (64 : Nat)) 0 := by
  rw [intOf_header]
  exact .inr (.inr (.inr (by decide)))

theorem doElfOpen_contained (host : ElfHost) (image : ElfImage) :
    ∀ access ∈ (doElfOpen host image).1, access.Contained image := by
  have contained := (elfRead_contained_iff host .hdr (by decide) (intOf_bounds _)).mpr
    (headerInside image)
  rwa [intOf_header, ← ElfRead.check_accesses _ checkEhdr] at contained

theorem ehdrOf_read (long : 64 ≤ image.len) :
    ehdrOf (elfRead host image .hdr 64 0).dst = ehdrOf image.byte := by
  have dst := elfRead_dst host .hdr (by decide) (by decide) (headerInside image)
    (.inr (by omega))
  rw [intOf_header] at dst
  refine ehdrOf_congr fun addr below => ?_
  rw [dst, if_pos below, Int.toNat_zero, Nat.zero_add]

theorem readHeader_iff : sizeOfInt (elfRead host image .hdr 64 0).ret = 64 ↔ 64 ≤ image.len := by
  have full := elfRead_full_iff host .hdr (by decide) (by decide) (headerInside image)
  rw [intOf_header, ElfImage.ReadFull] at full
  omega

theorem checkEhdr_cases {read : ElfRead} (ret : sizeOfInt read.ret = 64 ↔ 64 ≤ image.len)
    (dst : 64 ≤ image.len → ehdrOf read.dst = ehdrOf image.byte) :
    (image.Opens ∧ checkEhdr read = .ok (ehdrOf image.byte)) ∨
      (¬ image.Opens ∧ ∃ code < 0, checkEhdr read = .error code) := by
  rw [checkEhdr]
  by_cases long : 64 ≤ image.len
  · rw [if_neg (not_not_intro (ret.mpr long)), dst long]
    by_cases ident : (ehdrOf image.byte).eIdent.take 7 = elfIdent
    · by_cases version : (ehdrOf image.byte).eVersion = evCurrent
      · rw [if_neg (by simp only [ident, version, ne_eq, not_true_eq_false, or_self, not_false_eq_true])]
        by_cases machine : (ehdrOf image.byte).eMachine = emX8664
        · exact .inl ⟨⟨long, ident, version, machine⟩, if_neg (not_not_intro machine)⟩
        · exact .inr ⟨fun opens => machine opens.machine, -ummEinval, by decide, if_pos machine⟩
      · exact .inr ⟨fun opens => version opens.version, -ummEinval, by decide, if_pos (.inr version)⟩
    · exact .inr ⟨fun opens => ident opens.ident, -ummEinval, by decide, if_pos (.inl ident)⟩
  · exact .inr ⟨fun opens => long opens.long, -elfEio, by decide, if_pos (mt ret.mp long)⟩

theorem doElfOpen_cases (host : ElfHost) (image : ElfImage) :
    (image.Opens ∧ (doElfOpen host image).2 = .ok (ehdrOf image.byte)) ∨
      (¬ image.Opens ∧ ∃ code < 0, (doElfOpen host image).2 = .error code) := by
  rw [doElfOpen, ElfRead.check_result]
  exact checkEhdr_cases readHeader_iff ehdrOf_read

theorem doElfOpen_meets (host : ElfHost) (image : ElfImage) :
    (doElfOpen host image).Meets image fun hdr => image.Opens ∧ hdr = ehdrOf image.byte := by
  obtain ⟨opens, same⟩ | ⟨refused, code, negative, same⟩ := doElfOpen_cases host image
  · refine ⟨doElfOpen_contained host image, fun code error => ?_, fun hdr result => ⟨opens, ?_⟩⟩
    · exact nomatch same.symm.trans error
    · exact Except.ok.inj (result.symm.trans same)
  · refine ⟨doElfOpen_contained host image, fun other error => ?_, fun hdr result => ?_⟩
    · rwa [← Except.error.inj (same.symm.trans error)]
    · exact nomatch same.symm.trans result

/-- Tables that agree with the image on what is read of it. -/
theorem tables_agree {shdr shdrstr : Memory}
    (headers : ∀ addr, addr < (ehdrOf image.byte).eShnum * 64 → shdr addr = image.shdrs addr)
    (names : ∀ place, place < image.strHeader.shSize →
      shdrstr place = image.byte ((intOf image.strHeader.shOffset).toNat + place)) :
    ElfTables.Agrees ⟨shdr, shdrstr, image.strHeader.shSize⟩ image.tables (ehdrOf image.byte).eShnum :=
  ⟨rfl, headers, names⟩

theorem strHeader_placed (fits : (ehdrOf image.byte).eShoff < 2 ^ 31) :
    image.strHeader =
      shdrOf image.byte ((ehdrOf image.byte).eShoff + 64 * (ehdrOf image.byte).eShstrndx) := by
  have whole : (intOf (ehdrOf image.byte).eShoff).toNat = (ehdrOf image.byte).eShoff := by
    rw [intOf_small (by omega) (by omega), Int.toNat_natCast]
  rw [ElfImage.strHeader, ElfImage.shdrs, shdrOf, shdrOf]
  unfold ElfImage.bytesFrom
  rw [whole]
  simp only [loadLe_shift, Nat.add_assoc]

/-- After full reads the tables are where the headers place them when no offset is cut. -/
theorem tablesInside_iff (counted : (ehdrOf image.byte).eShstrndx < (ehdrOf image.byte).eShnum)
    (full : image.ReadFull ((ehdrOf image.byte).eShnum * 64) (intOf (ehdrOf image.byte).eShoff))
    (fullStr : image.ReadFull image.strHeader.shSize (intOf image.strHeader.shOffset)) :
    TablesInside image ↔ image.OffsetsFit := by
  have fits : image.len < 2 ^ 31 := image.fits
  rw [TablesInside, ElfImage.OffsetsFit, ElfImage.Inside, ElfImage.Inside]
  rw [ElfImage.ReadFull] at full fullStr
  by_cases whole : (ehdrOf image.byte).eShoff < 2 ^ 31
  · rw [← strHeader_placed whole]
    have same : intOf (ehdrOf image.byte).eShoff = (ehdrOf image.byte).eShoff :=
      intOf_small (by omega) (by omega)
    have sameStr : image.strHeader.shOffset < 2 ^ 31 →
        intOf image.strHeader.shOffset = image.strHeader.shOffset :=
      fun small => intOf_small (by omega) (by omega)
    omega
  · refine ⟨fun inside => ?_, fun inside => absurd inside.1 whole⟩
    have := inside.1
    omega

theorem openStrtab_meets (host : ElfHost) {shdr : Memory} (headers : ∀ addr, addr < (ehdrOf image.byte).eShnum * 64 →
      shdr addr = image.shdrs addr) (fine : image.StringsFine) :
    (openStrtab host image shdr image.strHeader).Meets image fun tables =>
      tables.Agrees image.tables (ehdrOf image.byte).eShnum ∧
        image.tables.NamesFine 0 (ehdrOf image.byte).eShnum ∧ (image.OffsetsFit ∨ image.tables.Long 0) ∧
          image.ReadFull image.strHeader.shSize (intOf image.strHeader.shOffset) := by
  rw [openStrtab]
  split
  next other => exact ElfRun.refused (by decide)
  next strings =>
    split
    next short => exact ElfRun.refused (by decide)
    next granted =>
      have small : image.strHeader.shSize < 2 ^ 63 := by
        by_contra big
        rw [host.ptrdiffMax _ _ (Nat.le_of_not_lt big)] at granted
        exact granted rfl
      obtain other | big | ⟨inside, names⟩ := fine
      · exact absurd other strings
      · exact absurd big (by omega)
      · refine ⟨?_, ?_, ?_⟩
        · rw [ElfRead.check_accesses, elfRead_contained_iff _ _ (intOf_bounds _) (intOf_bounds _)]
          exact inside
        · intro code error
          rw [ElfRead.check_result] at error
          split at error
          · obtain rfl := Except.error.inj error
            decide
          · exact nomatch error
        · intro tables result
          rw [ElfRead.check_result] at result
          split at result
          · exact nomatch result
          next ret =>
            have full := (elfRead_full_iff _ _ (intOf_bounds _) small inside).mp (not_not.mp ret)
            obtain rfl := Except.ok.inj result
            refine ⟨tables_agree headers fun place below => ?_, (names full).1, (names full).2, full⟩
            rw [elfRead_dst _ _ (intOf_bounds _) small inside full, if_pos below]

/-- `elf_open_shs` refuses at once, or it reads the header table. -/
theorem elfOpenShs_cases (host : ElfHost) (image : ElfImage) (hdr : Elf64Ehdr) :
    (∃ code < 0, elfOpenShs host image hdr = ([], .error code)) ∨
      (hdr.eShentsize = 64 ∧ hdr.eShnum ≤ maxShnum) := by
  by_cases entsize : hdr.eShentsize = 64
  · by_cases few : hdr.eShnum ≤ maxShnum
    · exact .inr ⟨entsize, few⟩
    · refine .inl ⟨-ummEinval, by decide, ?_⟩
      rw [elfOpenShs, if_neg (not_not_intro entsize), if_pos (Nat.lt_of_not_le few)]
  · exact .inl ⟨-ummEinval, by decide, by rw [elfOpenShs, if_pos entsize]⟩

theorem elfOpenShs_reads {hdr : Elf64Ehdr} (entsize : hdr.eShentsize = 64) (few : hdr.eShnum ≤ maxShnum) :
    elfOpenShs host image hdr =
      if !host.grants .shdr (hdr.eShnum * 64) then ([], .error (-ummEnomem))
      else
        ((elfRead host image .shdr (intOf (hdr.eShnum * 64 : Nat)) (intOf hdr.eShoff)).check
          (checkShdr hdr (hdr.eShnum * 64))).andThen fun shdr =>
            (readShdr hdr.eShnum shdr hdr.eShstrndx).andThen (openStrtab host image shdr) := by
  rw [elfOpenShs, if_neg (not_not_intro entsize), if_neg (Nat.not_lt_of_le few), entsize]

theorem checkShdr_negative {hdr : Elf64Ehdr} {len : Nat} {read : ElfRead} {code : Int}
    (error : checkShdr hdr len read = .error code) : code < 0 := by
  rw [checkShdr] at error
  split at error
  · obtain rfl := Except.error.inj error
    decide
  · split at error
    · obtain rfl := Except.error.inj error
      decide
    · exact nomatch error

theorem checkShdr_ok_iff {hdr : Elf64Ehdr} {len : Nat} {read : ElfRead} {shdr : Memory} :
    checkShdr hdr len read = .ok shdr ↔
      sizeOfInt read.ret = len ∧ hdr.eShstrndx ≤ hdr.eShnum ∧ read.dst = shdr := by
  rw [checkShdr]
  split
  next other => exact ⟨nofun, fun ok => absurd ok.1 other⟩
  next ret =>
    split
    next beyond => exact ⟨nofun, fun ok => absurd ok.2.1 (by omega)⟩
    next counted =>
      exact ⟨fun same => ⟨not_not.mp ret, by omega, Except.ok.inj same⟩, fun ok => congrArg _ ok.2.2⟩

theorem readShdr_meets {shnum index : Nat} (counted : index < shnum) (shdr : Memory) :
    (readShdr shnum shdr index).Meets image fun header => header = shdrOf shdr (64 * index) where
  contained := fun access member => by
    obtain rfl := List.mem_singleton.mp member
    exact counted
  negative := fun _ bad => nomatch bad
  result := fun _ same => (Except.ok.inj same).symm

theorem elfOpenShs_meets (opens : image.Opens) (fine : image.Fine) :
    (elfOpenShs host image (ehdrOf image.byte)).Meets image fun tables =>
      (0 < (ehdrOf image.byte).eShnum ∧ tables.Agrees image.tables (ehdrOf image.byte).eShnum) ∧
        image.tables.NamesFine 0 (ehdrOf image.byte).eShnum ∧ (TablesInside image ∨ image.tables.Long 0) := by
  obtain ⟨code, negative, same⟩ | ⟨entsize, few⟩ := elfOpenShs_cases host image (ehdrOf image.byte)
  · rw [same]
    exact ElfRun.refused negative
  · rw [elfOpenShs_reads entsize few]
    split
    next short => exact ElfRun.refused (by decide)
    next granted =>
      obtain closed | other | many | ⟨inside, loaded⟩ := fine
      · exact absurd opens closed
      · exact absurd entsize other
      · exact absurd many (by omega)
      · have small : (ehdrOf image.byte).eShnum * 64 < 2 ^ 63 := by
          rw [maxShnum] at few
          omega
        refine ElfRun.Meets.andThen (fun shdr =>
          ((ehdrOf image.byte).eShstrndx < (ehdrOf image.byte).eShnum ∧ image.StringsFine) ∧
            image.ReadFull ((ehdrOf image.byte).eShnum * 64) (intOf (ehdrOf image.byte).eShoff) ∧
            ∀ addr, addr < (ehdrOf image.byte).eShnum * 64 → shdr addr = image.shdrs addr)
          ⟨?_, fun code error => ?_, fun shdr result => ?_⟩ ?_
        · rw [ElfRead.check_accesses, elfRead_contained_iff _ _ (intOf_bounds _) (intOf_bounds _)]
          exact inside
        · rw [ElfRead.check_result] at error
          exact checkShdr_negative error
        · rw [ElfRead.check_result, checkShdr_ok_iff] at result
          obtain ⟨ret, counted, rfl⟩ := result
          have full := (elfRead_full_iff _ _ (intOf_bounds _) small inside).mp ret
          refine ⟨(loaded full).resolve_left (by omega), full, fun addr below => ?_⟩
          rw [elfRead_dst _ _ (intOf_bounds _) small inside full, if_pos below]
          rfl
        · rintro shdr ⟨⟨counted, strings⟩, full, headers⟩
          refine (readShdr_meets counted shdr).andThen _ ?_
          rintro str rfl
          rw [shdrOf_congr fun addr low high => headers addr (by omega)]
          have met := openStrtab_meets host headers strings
          refine ⟨met.contained, met.negative, fun tables same => ?_⟩
          obtain ⟨agrees, names, placed, fullStr⟩ := met.result tables same
          rw [← tablesInside_iff counted full fullStr] at placed
          exact ⟨⟨by omega, agrees⟩, names, placed⟩

theorem iterSh_meets {tables : ElfTables} {shnum : Nat} (counted : 0 < shnum)
    (same : tables.Agrees image.tables shnum) (names : image.tables.NamesFine 0 shnum)
    (placed : TablesInside image ∨ image.tables.Long 0) :
    (iterShFrom host shnum tables shnum 0).Meets image fun _ => TablesInside image := by
  refine ⟨iterShFrom_contained (by omega) (names.congr same.symm), fun code error => iterShFrom_error error,
    fun ret result => placed.resolve_right fun long => ?_⟩
  obtain ⟨left, rfl⟩ := Nat.exists_eq_succ_of_ne_zero (Nat.ne_of_gt counted)
  rw [iterShFrom_long (long.congr same.symm counted)] at result
  exact nomatch result

theorem sections_contained (host : ElfHost) (fine : image.Fine) : SectionsContained host image := by
  have met : (readSections host image).Meets image fun _ => TablesInside image := by
    refine (doElfOpen_meets host image).andThen _ ?_
    rintro hdr ⟨opens, rfl⟩
    refine (elfOpenShs_meets opens fine).andThen _ ?_
    rintro tables ⟨⟨counted, same⟩, names, placed⟩
    exact iterSh_meets counted same names placed
  refine ⟨met.contained, fun outside => ?_⟩
  have negative := met.negative
  have result := met.result
  generalize (readSections host image).2 = ended at negative result ⊢
  obtain code | ret := ended
  · exact negative code rfl
  · exact absurd (result ret rfl) outside

/-! A host that tells what the image does: it serves all it can, with zeros where nothing is known. -/

def generousHost (answer : Int) : ElfHost where
  around := fun _ => 0
  fresh := fun _ _ => 0
  grants := fun _ size => size < 2 ^ 63
  ptrdiffMax := fun _ _ big => decide_eq_false (Nat.not_lt_of_le big)
  cb := fun _ => answer

theorem ElfRun.andThen_ok {run : ElfRun α} {value : α} (ok : run.2 = .ok value) (next : α → ElfRun β) :
    (run.andThen next).2 = (next value).2 := by
  obtain ⟨accesses, result⟩ := run
  obtain rfl : result = .ok value := ok
  rfl

theorem ElfRead.check_andThen {read : ElfRead} {result : ElfRead → Except Int α} {value : α}
    (ok : result read = .ok value) (next : α → ElfRun β) :
    ((read.check result).andThen next).2 = (next value).2 :=
  ElfRun.andThen_ok ok next

theorem ElfRead.forall_check_andThen {good : ElfAccess → Prop} {read : ElfRead}
    {result : ElfRead → Except Int α} {next : α → ElfRun β} :
    (∀ access ∈ ((read.check result).andThen next).1, good access) ↔
      (∀ access ∈ read.accesses, good access) ∧
        ∀ value, result read = .ok value → ∀ access ∈ (next value).1, good access :=
  ElfRun.forall_andThen _ _

theorem readShdr_andThen {shnum index : Nat} {shdr : Memory} (next : Elf64Shdr → ElfRun β) :
    ((readShdr shnum shdr index).andThen next).2 = (next (shdrOf shdr (64 * index))).2 := rfl

theorem forall_readShdr_andThen {good : ElfAccess → Prop} {shnum index : Nat} {shdr : Memory}
    {next : Elf64Shdr → ElfRun β} :
    (∀ access ∈ ((readShdr shnum shdr index).andThen next).1, good access) ↔
      good (.header shnum index) ∧ ∀ access ∈ (next (shdrOf shdr (64 * index))).1, good access :=
  List.forall_mem_cons

theorem elfOpenShs_generous {hdr : Elf64Ehdr} (answer : Int) (entsize : hdr.eShentsize = 64)
    (few : hdr.eShnum ≤ maxShnum) :
    elfOpenShs (generousHost answer) image hdr =
      ((elfRead (generousHost answer) image .shdr (intOf (hdr.eShnum * 64 : Nat)) (intOf hdr.eShoff)).check
        (checkShdr hdr (hdr.eShnum * 64))).andThen fun shdr =>
          (readShdr hdr.eShnum shdr hdr.eShstrndx).andThen (openStrtab (generousHost answer) image shdr) := by
  have granted : (generousHost answer).grants .shdr (hdr.eShnum * 64) = true :=
    decide_eq_true (by rw [maxShnum] at few; omega)
  rw [elfOpenShs_reads entsize few, granted]
  exact if_neg Bool.false_ne_true

theorem openStrtab_generous {str : Elf64Shdr} (answer : Int) (shdr : Memory)
    (strings : str.shType = shtStrtab) (small : str.shSize < 2 ^ 63) :
    openStrtab (generousHost answer) image shdr str =
      (elfRead (generousHost answer) image .shdrstr (intOf str.shSize) (intOf str.shOffset)).check fun read =>
        if sizeOfInt read.ret ≠ str.shSize then .error (-elfEio)
        else .ok ⟨shdr, read.dst, str.shSize⟩ := by
  have granted : (generousHost answer).grants .shdrstr str.shSize = true := decide_eq_true small
  rw [openStrtab, if_neg (not_not_intro strings), granted]
  exact if_neg Bool.false_ne_true

/-- The header table is read in full, and counts the table of the names or ends right before it. -/
structure ElfImage.HeadersLoad (image : ElfImage) : Prop where
  entsize : (ehdrOf image.byte).eShentsize = 64
  few : (ehdrOf image.byte).eShnum ≤ maxShnum
  inside : image.ReadInside (intOf ((ehdrOf image.byte).eShnum * 64 : Nat)) (intOf (ehdrOf image.byte).eShoff)
  full : image.ReadFull ((ehdrOf image.byte).eShnum * 64) (intOf (ehdrOf image.byte).eShoff)
  counted : (ehdrOf image.byte).eShstrndx ≤ (ehdrOf image.byte).eShnum

theorem ElfImage.HeadersLoad.shdrs (load : image.HeadersLoad) (host : ElfHost) :
    ∃ shdr, checkShdr (ehdrOf image.byte) ((ehdrOf image.byte).eShnum * 64) (elfRead host image .shdr
        (intOf ((ehdrOf image.byte).eShnum * 64 : Nat)) (intOf (ehdrOf image.byte).eShoff)) = .ok shdr ∧
      ∀ addr, addr < (ehdrOf image.byte).eShnum * 64 → shdr addr = image.shdrs addr := by
  have small : (ehdrOf image.byte).eShnum * 64 < 2 ^ 63 := by
    have few := load.few
    rw [maxShnum] at few
    omega
  have ret := (elfRead_full_iff host .shdr (intOf_bounds _) small load.inside).mpr
    load.full
  refine ⟨_, checkShdr_ok_iff.mpr ⟨ret, load.counted, rfl⟩, fun addr below => ?_⟩
  rw [elfRead_dst _ _ (intOf_bounds _) small load.inside load.full, if_pos below]
  rfl

/-- What is loaded of the header of the names. -/
theorem strHeader_loaded {shdr : Memory}
    (counted : (ehdrOf image.byte).eShstrndx < (ehdrOf image.byte).eShnum)
    (headers : ∀ addr, addr < (ehdrOf image.byte).eShnum * 64 → shdr addr = image.shdrs addr) :
    shdrOf shdr (64 * (ehdrOf image.byte).eShstrndx) = image.strHeader :=
  shdrOf_congr fun addr low high => headers addr (by omega)

/-- The table of the names is read in full. -/
structure ElfImage.StringsLoad (image : ElfImage) : Prop where
  counted : (ehdrOf image.byte).eShstrndx < (ehdrOf image.byte).eShnum
  strings : image.strHeader.shType = shtStrtab
  small : image.strHeader.shSize < 2 ^ 63
  inside : image.ReadInside (intOf image.strHeader.shSize) (intOf image.strHeader.shOffset)
  full : image.ReadFull image.strHeader.shSize (intOf image.strHeader.shOffset)

/-- The tables that the generous host opens, with zeros behind the names. -/
theorem tables_opened (answer : Int) (load : image.HeadersLoad) (names : image.StringsLoad) :
    ∃ tables, (elfOpenShs (generousHost answer) image (ehdrOf image.byte)).2 = .ok tables ∧
      tables.Agrees image.tables (ehdrOf image.byte).eShnum ∧
        ∀ place, tables.strtablen ≤ place → tables.shdrstr place = 0 := by
  obtain ⟨shdr, loaded, headers⟩ := load.shdrs (generousHost answer)
  have dst := elfRead_dst (generousHost answer) .shdrstr (intOf_bounds _) names.small
    names.inside names.full
  have ret := (elfRead_full_iff (generousHost answer) .shdrstr (intOf_bounds _) names.small
    names.inside).mpr names.full
  obtain ⟨read, same⟩ : ∃ read, elfRead (generousHost answer) image .shdrstr (intOf image.strHeader.shSize)
    (intOf image.strHeader.shOffset) = read := ⟨_, rfl⟩
  rw [same] at dst ret
  refine ⟨⟨shdr, read.dst, image.strHeader.shSize⟩, ?_, tables_agree headers fun place below => ?_,
    fun place behind => ?_⟩
  · rw [elfOpenShs_generous answer load.entsize load.few, ElfRead.check_andThen loaded, readShdr_andThen,
      strHeader_loaded names.counted headers, openStrtab_generous answer shdr names.strings names.small, same,
      ElfRead.check_result, if_neg (not_not_intro ret)]
  · rw [dst, if_pos below]
  · exact (dst place).trans (if_neg (Nat.not_lt_of_le behind))

/-- The accesses of `elf_open_shs` and of the loop, in a run of the generous host that is as it should be. -/
theorem generous_contained {answer : Int} (opens : image.Opens)
    (all : SectionsContained (generousHost answer) image) :
    (∀ access ∈ (elfOpenShs (generousHost answer) image (ehdrOf image.byte)).1, access.Contained image) ∧
      ∀ tables, (elfOpenShs (generousHost answer) image (ehdrOf image.byte)).2 = .ok tables →
        ∀ access ∈ (iterShFrom (generousHost answer) (ehdrOf image.byte).eShnum tables
          (ehdrOf image.byte).eShnum 0).1, access.Contained image := by
  obtain ⟨_, opened⟩ | ⟨closed, _⟩ := doElfOpen_cases (generousHost answer) image
  · have run := ((ElfRun.forall_andThen _ _).mp all.inside).2 _ opened
    exact (ElfRun.forall_andThen _ _).mp run
  · exact absurd opens closed

theorem generous_returned {answer : Int} {tables : ElfTables} (opens : image.Opens)
    (opened : (elfOpenShs (generousHost answer) image (ehdrOf image.byte)).2 = .ok tables)
    (all : SectionsContained (generousHost answer) image) (outside : ¬ TablesInside image) :
    returned (iterShFrom (generousHost answer) (ehdrOf image.byte).eShnum tables
      (ehdrOf image.byte).eShnum 0).2 < 0 := by
  have negative := all.refused outside
  obtain ⟨_, accepted⟩ | ⟨closed, _⟩ := doElfOpen_cases (generousHost answer) image
  · rwa [readSections, ElfRun.andThen_ok accepted, duneElfIterSh, ElfRun.andThen_ok opened] at negative
  · exact absurd opens closed

theorem strings_inside (load : image.HeadersLoad) (strings : image.strHeader.shType = shtStrtab)
    (counted : (ehdrOf image.byte).eShstrndx < (ehdrOf image.byte).eShnum)
    (small : image.strHeader.shSize < 2 ^ 63)
    (contained : ∀ access ∈ (elfOpenShs (generousHost 0) image (ehdrOf image.byte)).1,
      access.Contained image) :
    image.ReadInside (intOf image.strHeader.shSize) (intOf image.strHeader.shOffset) := by
  obtain ⟨shdr, loaded, headers⟩ := load.shdrs (generousHost 0)
  rw [elfOpenShs_generous 0 load.entsize load.few, ElfRead.forall_check_andThen] at contained
  have rest := contained.2 shdr loaded
  rw [forall_readShdr_andThen] at rest
  have last := rest.2
  rw [strHeader_loaded counted headers, openStrtab_generous 0 shdr strings small, ElfRead.check_accesses,
    elfRead_contained_iff _ _ (intOf_bounds _) (intOf_bounds _)] at last
  exact last

theorem stringsFine_of_runs (all : ∀ host, SectionsContained host image) (opens : image.Opens)
    (load : image.HeadersLoad) (counted : (ehdrOf image.byte).eShstrndx < (ehdrOf image.byte).eShnum) :
    image.StringsFine := by
  by_cases strings : image.strHeader.shType = shtStrtab
  · by_cases small : image.strHeader.shSize < 2 ^ 63
    · refine .inr (.inr ?_)
      have opened := fun answer => generous_contained opens (all (generousHost answer))
      have inside := strings_inside load strings counted small (opened 0).1
      refine ⟨inside, fun full => ?_⟩
      have names : image.StringsLoad := ⟨counted, strings, small, inside, full⟩
      constructor
      · obtain ⟨tables, ok, same, zeros⟩ := tables_opened 0 load names
        exact (iterShFrom_names (fun _ => rfl) zeros ((opened 0).2 tables ok)).congr same
      · by_contra neither
        obtain ⟨cut, short⟩ := not_or.mp neither
        have outside := mt (tablesInside_iff counted load.full full).mp cut
        obtain ⟨tables, ok, same, zeros⟩ := tables_opened 1 load names
        have refused := generous_returned opens ok (all _) outside
        obtain ⟨left, succ⟩ := Nat.exists_eq_succ_of_ne_zero (show (ehdrOf image.byte).eShnum ≠ 0 by omega)
        rw [succ] at refused
        have long := long_of_refused (show 0 < (generousHost 1).cb 0 from Int.one_pos) zeros refused
        exact short (long.congr same (by omega))
    · exact .inr (.inl (by omega))
  · exact .inl strings

theorem fine_of_runs (all : ∀ host, SectionsContained host image) : image.Fine := by
  by_cases opens : image.Opens
  · by_cases entsize : (ehdrOf image.byte).eShentsize = 64
    · by_cases few : (ehdrOf image.byte).eShnum ≤ maxShnum
      · refine .inr (.inr (.inr ?_))
        have run := (generous_contained opens (all (generousHost 0))).1
        rw [elfOpenShs_generous 0 entsize few, ElfRead.forall_check_andThen,
          elfRead_contained_iff _ _ (intOf_bounds _) (intOf_bounds _)] at run
        refine ⟨run.1, fun full => ?_⟩
        by_cases beyond : (ehdrOf image.byte).eShnum < (ehdrOf image.byte).eShstrndx
        · exact .inl beyond
        · have load : image.HeadersLoad := ⟨entsize, few, run.1, full, Nat.le_of_not_lt beyond⟩
          obtain ⟨shdr, loaded, headers⟩ := load.shdrs (generousHost 0)
          have rest := run.2 shdr loaded
          rw [forall_readShdr_andThen] at rest
          exact .inr ⟨rest.1, stringsFine_of_runs all opens load rest.1⟩
      · exact .inr (.inr (.inl (by omega)))
    · exact .inr (.inl entsize)
  · exact .inl opens

/-- Every run on an image is as it should be if and only if the image leads no read astray. -/
theorem sections_contained_iff (image : ElfImage) :
    (∀ host, SectionsContained host image) ↔ image.Fine :=
  ⟨fine_of_runs, fun fine host => sections_contained host fine⟩

/-- A header table that starts at `0xffffffc0` is read from the 64 bytes before the image. -/
def wrappedSections : ElfImage where
  bytes := [0x7f, 0x45, 0x4c, 0x46, 2, 1, 1, 0, 0, 0, 0, 0, 0, 0, 0, 0, 3, 0, 62, 0, 1, 0, 0, 0] ++
    List.replicate 16 0 ++ [0xc0, 0xff, 0xff, 0xff, 0, 0, 0, 0] ++ List.replicate 10 0 ++ [64, 0, 1, 0, 0, 0]
  fits := by decide

theorem sections_read_outside : ¬ ∀ image host, SectionsContained host image := by
  intro all
  have inside := fine_of_runs (all wrappedSections)
  have opens : wrappedSections.Opens := ⟨by decide, by decide, by decide, by decide⟩
  obtain closed | other | many | ⟨read, _⟩ := inside
  · exact closed opens
  · exact absurd other (by decide)
  · exact absurd many (by decide)
  · revert read
    rw [ElfImage.ReadInside]
    decide

end Runs

end RdmaPaging
