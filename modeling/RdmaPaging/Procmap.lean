import Mathlib.Data.Nat.Digits.Defs
import RdmaPaging.FirewallRules

/-!
The parser of `/proc/self/maps`, `procmap.c`, and the lines that the kernel prints there. Whatever
the regions of the process are, the callback sees each of them, in order.
-/

namespace RdmaPaging

inductive ProcmapType
  | unknown
  | file
  | anonymous
  | heap
  | stack
  | vsyscall
  | vdso
  deriving DecidableEq

structure ProcmapEntry where
  start : BitVec 64
  stop : BitVec 64
  r : Bool
  w : Bool
  x : Bool
  p : Bool
  offset : BitVec 64
  path : Text
  type : ProcmapType
  deriving DecidableEq

def getType (path : Text) : ProcmapType :=
  if path.head? ≠ some '[' ∧ path ≠ [] then .file
  else if path = [] then .anonymous
  else if path = "[heap]".toList then .heap
  else if path.take 6 = "[stack".toList then .stack
  else if path = "[vsyscall]".toList then .vsyscall
  else if path = "[vdso]".toList then .vdso
  else .unknown

/-! The conversions of `sscanf`. The input is `none` once one has failed. -/

def scanSign (text : Text) : Bool × Text :=
  match text with
  | '-' :: rest => (true, rest)
  | '+' :: rest => (false, rest)
  | _ => (false, text)

def skipPrefix (base : Nat) (text : Text) : Text :=
  match text with
  | '0' :: x :: rest =>
      if base = 16 ∧ (x = 'x' ∨ x = 'X') ∧ rest.head?.any (isDigit 16) then rest else text
  | _ => text

/-- A number with an optional sign and, in base 16, an optional prefix. -/
def scanNumber (base : Nat) (text : Text) : Option (Bool × Nat × Text) :=
  let signed := scanSign (text.dropWhile isSpace)
  let digits := skipPrefix base signed.2
  if digits.head?.any (isDigit base) then
    some (signed.1, (readDigits base 0 digits).1, (readDigits base 0 digits).2)
  else none

/-- The result of `strtoul`. -/
def toUlong (negative : Bool) (value : Nat) : BitVec 64 :=
  if 2 ^ 64 ≤ value then BitVec.allOnes 64
  else if negative then -BitVec.ofNat 64 value else BitVec.ofNat 64 value

/-- `%lx`. -/
def scanLong (old : BitVec 64) (input : Option Text) : BitVec 64 × Option Text :=
  match input.bind (scanNumber 16) with
  | some (negative, value, rest) => (toUlong negative value, some rest)
  | none => (old, none)

/-- `%x` and `%d`, whose values are not used. -/
def skipNumber (base : Nat) (input : Option Text) : Option Text :=
  (input.bind (scanNumber base)).map fun found => found.2.2

/-- `%c`. -/
def scanChar (old : Char) (input : Option Text) : Char × Option Text :=
  match input with
  | some (c :: rest) => (c, some rest)
  | _ => (old, none)

/-- White space in the format. -/
def skipSpace (input : Option Text) : Option Text := input.map fun text => text.dropWhile isSpace

/-- Any other character in the format. -/
def skipChar (expected : Char) (input : Option Text) : Option Text :=
  match input with
  | some (c :: rest) => if c = expected then some rest else none
  | _ => none

/-! The parser. -/

/-- The local variables of `dune_procmap_iterate`. -/
structure ProcmapVars where
  start : BitVec 64
  stop : BitVec 64
  read : Char
  write : Char
  execute : Char
  privately : Char
  offset : BitVec 64
  path : Text

/-- The `sscanf` of a line, with the format `%lx-%lx %c%c%c%c %lx %x:%x %d %s`. What is not scanned
keeps its value. No result means that the path does not fit. -/
def sscanfMaps (line : Text) (vars : ProcmapVars) : Option ProcmapVars :=
  let (start, input) := scanLong vars.start (some line)
  let (stop, input) := scanLong vars.stop (skipChar '-' input)
  let (read, input) := scanChar vars.read (skipSpace input)
  let (write, input) := scanChar vars.write input
  let (execute, input) := scanChar vars.execute input
  let (privately, input) := scanChar vars.privately input
  let (offset, input) := scanLong vars.offset (skipSpace input)
  let input := skipNumber 16 (skipChar ':' (skipNumber 16 (skipSpace input)))
  (scanString 256 vars.path (skipSpace (skipNumber 10 (skipSpace input)))).map fun found =>
    ⟨start, stop, read, write, execute, privately, offset, found.1⟩

def ProcmapVars.entry (vars : ProcmapVars) : ProcmapEntry where
  start := vars.start
  stop := vars.stop
  r := vars.read = 'r'
  w := vars.write = 'w'
  x := vars.execute = 'x'
  p := vars.privately = 'p'
  offset := vars.offset
  path := vars.path
  type := getType vars.path

/-- The loop of `dune_procmap_iterate`: the entries for which it calls the callback. -/
def procmapLoop : Nat → FwFile → ProcmapVars → Option (List ProcmapEntry)
  | 0, _, _ => none
  | fuel + 1, map, vars =>
      if map.eof then some []
      else
        match fgets 512 map with
        | (none, _) => some []
        | (some line, next) =>
            (sscanfMaps line { vars with path := [] }).bind fun scanned =>
              (procmapLoop fuel next scanned).map (scanned.entry :: ·)

/-- Each turn reads a character at least. -/
def duneProcmapIterate (uninit : ProcmapVars) (maps : Text) : Option (List ProcmapEntry) :=
  procmapLoop (maps.length + 1) ⟨maps, false⟩ uninit

/-! What the kernel prints. -/

def digitChar (digit : Nat) : Char :=
  if digit < 10 then Char.ofNat (digit + '0'.toNat) else Char.ofNat (digit - 10 + 'a'.toNat)

/-- A number with at least `width` digits. -/
def numberText (base width value : Nat) : Text :=
  let digits := ((Nat.digits base value).map digitChar).reverse
  List.replicate (width - digits.length) '0' ++ digits

/-- A region of the process. -/
structure MapsRegion where
  start : BitVec 64
  stop : BitVec 64
  r : Bool
  w : Bool
  x : Bool
  p : Bool
  offset : BitVec 64
  major : Nat
  minor : Nat
  inode : Nat
  path : Text

def flagChar (flag : Bool) (c : Char) : Char := if flag then c else '-'

/-- The line of a region. `gap` is the padding before the path. -/
def MapsRegion.text (region : MapsRegion) (gap : Nat) : Text :=
  numberText 16 8 region.start.toNat ++ '-' :: (numberText 16 8 region.stop.toNat ++ ' ' ::
    flagChar region.r 'r' :: flagChar region.w 'w' :: flagChar region.x 'x' ::
      (if region.p then 'p' else 's') :: ' ' :: (numberText 16 8 region.offset.toNat ++ ' ' ::
        (numberText 16 2 region.major ++ ':' :: (numberText 16 2 region.minor ++ ' ' ::
          (numberText 10 1 region.inode ++ List.replicate (gap + 1) ' ' ++ region.path)))))

def firstWord (text : Text) : Text := (text.dropWhile isSpace).takeWhile (!isSpace ·)

/-- The parser stores the first word of a path. -/
def MapsRegion.entry (region : MapsRegion) : ProcmapEntry where
  start := region.start
  stop := region.stop
  r := region.r
  w := region.w
  x := region.x
  p := region.p
  offset := region.offset
  path := firstWord region.path
  type := getType (firstWord region.path)

/-! Numbers. -/

theorem digitValue_digitChar {digit : Nat} (small : digit < 16) :
    digitValue (digitChar digit) = some digit := by
  have all : ∀ digit < 16, digitValue (digitChar digit) = some digit := by decide
  exact all digit small

/-- The digits of a number, the highest first, after zeros. -/
@[grind =] def numberDigits (base width value : Nat) : List Nat :=
  List.replicate (width - (Nat.digits base value).length) 0 ++ (Nat.digits base value).reverse

theorem numberText_digits (base width value : Nat) :
    numberText base width value = (numberDigits base width value).map digitChar := by
  simp [numberText, numberDigits, digitChar]

theorem numberDigits_lt {base : Nat} (proper : 1 < base) (width value : Nat) :
    ∀ digit ∈ numberDigits base width value, digit < base := by
  intro digit member
  rcases List.mem_append.mp member with zero | high
  · rw [(List.mem_replicate.mp zero).2]
    omega
  · exact Nat.digits_lt_base proper (List.mem_reverse.mp high)

theorem numberDigits_ne_nil {width : Nat} (wide : 0 < width) (base value : Nat) :
    numberDigits base width value ≠ [] := by
  intro empty
  have sizes := congrArg List.length empty
  simp only [numberDigits, List.length_append, List.length_replicate, List.length_reverse,
    List.length_nil] at sizes
  omega

theorem foldl_numberDigits (base width value : Nat) :
    (numberDigits base width value).foldl (fun value digit => value * base + digit) 0 = value := by
  have zeros : ∀ count, (List.replicate count 0).foldl (fun value digit => value * base + digit) 0 = 0 := by
    intro count
    induction count with
    | zero => rfl
    | succ count ih =>
        rw [List.replicate_succ, List.foldl_cons]
        simpa using ih
  have digits : ∀ list : List Nat,
      list.foldr (fun digit value => value * base + digit) 0 = Nat.ofDigits base list := by
    intro list
    induction list with
    | nil => rfl
    | cons digit list ih =>
        rw [List.foldr_cons, ih, Nat.ofDigits_cons, Nat.mul_comm, Nat.add_comm]
  rw [numberDigits, List.foldl_append, zeros, List.foldl_reverse, digits, Nat.ofDigits_digits]

theorem readDigits_map {base : Nat} (small : base ≤ 16) {digits : List Nat}
    (inBase : ∀ digit ∈ digits, digit < base) {rest : Text}
    (ends : rest.head?.any (isDigit base) = false) (value : Nat) :
    readDigits base value (digits.map digitChar ++ rest) =
      (digits.foldl (fun value digit => value * base + digit) value, rest) := by
  induction digits generalizing value with
  | nil =>
      cases rest with
      | nil => rfl
      | cons c rest =>
          rw [List.head?_cons, Option.any_some, isDigit] at ends
          rw [List.map_nil, List.nil_append, readDigits]
          rcases found : digitValue c with _ | digit
          · rfl
          · rw [found, Option.any_some, decide_eq_false_iff_not] at ends
            simp only [if_neg ends, List.foldl_nil]
  | cons digit digits ih =>
      have below := inBase digit List.mem_cons_self
      rw [List.map_cons, List.cons_append, readDigits, digitValue_digitChar (by omega)]
      simp only [if_pos below, List.foldl_cons]
      exact ih (fun other member => inBase other (List.mem_cons_of_mem _ member)) _

/-- What may follow a number in a line. -/
def EndsNumber (rest : Text) : Prop := ∃ c more, rest = c :: more ∧ (c = ' ' ∨ c = '-' ∨ c = ':')

theorem EndsNumber.notDigit {rest : Text} (ends : EndsNumber rest) (base : Nat) :
    rest.head?.any (isDigit base) = false := by
  obtain ⟨c, more, rfl, rfl | rfl | rfl⟩ := ends <;> rfl

theorem scanNumber_number {base width : Nat} (proper : 1 < base) (small : base ≤ 16) (wide : 0 < width)
    (value : Nat) {rest : Text} (ends : EndsNumber rest) :
    scanNumber base (numberText base width value ++ rest) = some (false, value, rest) := by
  have inBase := numberDigits_lt proper width value
  obtain ⟨digit, digits, isDigits⟩ := List.exists_cons_of_ne_nil (numberDigits_ne_nil wide base value)
  have first : digit < 16 := Nat.lt_of_lt_of_le (inBase digit (by simp [isDigits])) small
  have plain : ∀ digit < 16, isSpace (digitChar digit) = false ∧ digitChar digit ≠ '-' ∧
      digitChar digit ≠ '+' ∧ digitChar digit ≠ 'x' ∧ digitChar digit ≠ 'X' := by decide
  have text : numberText base width value ++ rest = digitChar digit :: (digits.map digitChar ++ rest) := by
    rw [numberText_digits, isDigits, List.map_cons, List.cons_append]
  have starts : (numberText base width value ++ rest).dropWhile isSpace =
      numberText base width value ++ rest := by
    rw [text, List.dropWhile_cons_of_neg (by simp [(plain digit first).1])]
  have noPrefix : ∀ x more, digits.map digitChar ++ rest = x :: more → ¬ (x = 'x' ∨ x = 'X') := by
    intro x more same
    cases digits with
    | nil =>
        obtain ⟨c, after, rfl, isEnd⟩ := ends
        rw [List.map_nil, List.nil_append, List.cons.injEq] at same
        rw [← same.1]
        rcases isEnd with rfl | rfl | rfl <;> decide
    | cons second digits =>
        have bound : second < 16 := Nat.lt_of_lt_of_le (inBase second (by simp [isDigits])) small
        rw [List.map_cons, List.cons_append, List.cons.injEq] at same
        rw [← same.1]
        simp [(plain second bound).2.2.2]
  have read := readDigits_map small inBase (ends.notDigit base) 0
  rw [← numberText_digits, foldl_numberDigits] at read
  have isFirst : (numberText base width value ++ rest).head?.any (isDigit base) = true := by
    rw [text, List.head?_cons, Option.any_some, isDigit, digitValue_digitChar first, Option.any_some]
    exact decide_eq_true (inBase digit (by simp [isDigits]))
  have unsigned : scanSign (numberText base width value ++ rest) =
      (false, numberText base width value ++ rest) := by
    rw [text]
    unfold scanSign
    split
    · rename_i same
      exact absurd (List.cons.inj same).1 (plain digit first).2.1
    · rename_i same
      exact absurd (List.cons.inj same).1 (plain digit first).2.2.1
    · rfl
  have whole : skipPrefix base (numberText base width value ++ rest) =
      numberText base width value ++ rest := by
    rw [text]
    unfold skipPrefix
    split
    · rename_i x more same
      exact if_neg fun hex => noPrefix x more (List.cons.inj same).2 hex.2.1
    · rfl
  simp only [scanNumber, starts, unsigned, whole, read, isFirst, if_true]

theorem toUlong_toNat (value : BitVec 64) : toUlong false value.toNat = value := by
  rw [toUlong, if_neg (by have := value.isLt; omega), if_neg (by simp), BitVec.ofNat_toNat,
    BitVec.setWidth_eq]

theorem scanLong_number (old value : BitVec 64) {rest : Text} (ends : EndsNumber rest) :
    scanLong old (some (numberText 16 8 value.toNat ++ rest)) = (value, some rest) := by
  have scanned : scanNumber 16 (numberText 16 8 value.toNat ++ rest) = some (false, value.toNat, rest) :=
    scanNumber_number (by decide) (by decide) (by decide) value.toNat ends
  simp only [scanLong, Option.bind_some, scanned, toUlong_toNat]

theorem skipNumber_number {base width : Nat} (proper : 1 < base) (small : base ≤ 16) (wide : 0 < width)
    (value : Nat) {rest : Text} (ends : EndsNumber rest) :
    skipNumber base (some (numberText base width value ++ rest)) = some rest := by
  simp only [skipNumber, Option.bind_some, scanNumber_number proper small wide value ends, Option.map_some]

/-- A number starts at its first digit. -/
theorem numberText_space {base width : Nat} (proper : 1 < base) (small : base ≤ 16) (wide : 0 < width)
    (value : Nat) (rest : Text) :
    (numberText base width value ++ rest).dropWhile isSpace = numberText base width value ++ rest := by
  have inBase := numberDigits_lt proper width value
  obtain ⟨digit, digits, isDigits⟩ := List.exists_cons_of_ne_nil (numberDigits_ne_nil wide base value)
  have first : digit < 16 := Nat.lt_of_lt_of_le (inBase digit (by simp [isDigits])) small
  have plain : ∀ digit < 16, isSpace (digitChar digit) = false := by decide
  rw [numberText_digits, isDigits, List.map_cons, List.cons_append,
    List.dropWhile_cons_of_neg (by simp [plain digit first])]

/-! A line. -/

theorem dropWhile_spaces (count : Nat) (text : Text) :
    (List.replicate count ' ' ++ text).dropWhile isSpace = text.dropWhile isSpace := by
  induction count with
  | zero => rfl
  | succ count ih => rw [List.replicate_succ, List.cons_append, List.dropWhile_cons_of_pos rfl, ih]

theorem dropWhile_newline (path : Text) :
    (path ++ ['\n']).dropWhile isSpace =
      if path.dropWhile isSpace = [] then [] else path.dropWhile isSpace ++ ['\n'] := by
  induction path with
  | nil => rfl
  | cons c path ih =>
      rw [List.cons_append]
      by_cases blank : isSpace c = true
      · rw [List.dropWhile_cons_of_pos blank, List.dropWhile_cons_of_pos blank, ih]
      · rw [List.dropWhile_cons_of_neg blank, List.dropWhile_cons_of_neg blank, if_neg (by simp)]
        rfl

theorem scanString_path (path : Text) :
    (scanString 256 [] (some ((path ++ ['\n']).dropWhile isSpace))).map Prod.fst =
      if (firstWord path).length < 256 then some (firstWord path) else none := by
  rw [dropWhile_newline]
  by_cases blank : path.dropWhile isSpace = []
  · rw [if_pos blank, firstWord, blank]
    rfl
  · obtain ⟨c, word, starts⟩ := List.exists_cons_of_ne_nil blank
    have notSpace : ¬ isSpace c = true := by
      have head := List.head_dropWhile_not isSpace blank
      simp only [starts, List.head_cons] at head
      simp [head]
    have ended : ∀ text : Text, (text ++ ['\n']).takeWhile (!isSpace ·) = text.takeWhile (!isSpace ·) := by
      intro text
      induction text with
      | nil => rfl
      | cons c text ih => simp only [List.cons_append, List.takeWhile_cons, ih]
    rw [if_neg blank]
    simp only [scanString]
    have again : (path.dropWhile isSpace ++ ['\n']).dropWhile isSpace = c :: (word ++ ['\n']) := by
      rw [starts, List.cons_append, List.dropWhile_cons_of_neg notSpace]
    have found : (c :: (word ++ ['\n'])).takeWhile (!isSpace ·) = firstWord path := by
      rw [← List.cons_append, ended, firstWord, starts]
    simp only [again, found]
    split <;> rfl

theorem EndsNumber.of {c : Char} (isEnd : c = ' ' ∨ c = '-' ∨ c = ':') (rest : Text) :
    EndsNumber (c :: rest) :=
  ⟨c, rest, rfl, isEnd⟩

/-- The variables after the line of a region. -/
def MapsRegion.vars (region : MapsRegion) : ProcmapVars where
  start := region.start
  stop := region.stop
  read := flagChar region.r 'r'
  write := flagChar region.w 'w'
  execute := flagChar region.x 'x'
  privately := if region.p then 'p' else 's'
  offset := region.offset
  path := firstWord region.path

theorem flagChar_iff {c : Char} (letter : c ≠ '-') (flag : Bool) : flagChar flag c = c ↔ flag = true := by
  cases flag
  · exact ⟨fun same => absurd same.symm letter, nofun⟩
  · exact ⟨fun _ => rfl, fun _ => rfl⟩

theorem MapsRegion.vars_entry (region : MapsRegion) : region.vars.entry = region.entry := by
  have shared : (if region.p = true then 'p' else 's') = 'p' ↔ region.p = true := by
    cases region.p <;> decide
  simp only [ProcmapVars.entry, MapsRegion.vars, MapsRegion.entry, flagChar_iff (by decide : 'r' ≠ '-'),
    flagChar_iff (by decide : 'w' ≠ '-'), flagChar_iff (by decide : 'x' ≠ '-'), shared, Bool.decide_eq_true]

theorem sscanfMaps_text (region : MapsRegion) (gap : Nat) {vars : ProcmapVars} (cleared : vars.path = []) :
    sscanfMaps (region.text gap ++ ['\n']) vars =
      if (firstWord region.path).length < 256 then some region.vars else none := by
  have space : ∀ rest, EndsNumber (' ' :: rest) := EndsNumber.of (.inl rfl)
  have dash : ∀ rest, EndsNumber ('-' :: rest) := EndsNumber.of (.inr (.inl rfl))
  have colon : ∀ rest, EndsNumber (':' :: rest) := EndsNumber.of (.inr (.inr rfl))
  have blank : isSpace ' ' = true := rfl
  have flagged : ∀ flag c rest, isSpace c = false →
      (flagChar flag c :: rest).dropWhile isSpace = flagChar flag c :: rest := by
    intro flag c rest plain
    cases flag
    · rfl
    · exact List.dropWhile_cons_of_neg (by simp [flagChar, plain])
  have hex : ∀ value rest,
      (numberText 16 8 value ++ rest).dropWhile isSpace = numberText 16 8 value ++ rest :=
    numberText_space (by decide) (by decide) (by decide)
  have device : ∀ value rest,
      (numberText 16 2 value ++ rest).dropWhile isSpace = numberText 16 2 value ++ rest :=
    numberText_space (by decide) (by decide) (by decide)
  have node : ∀ value rest,
      (numberText 10 1 value ++ rest).dropWhile isSpace = numberText 10 1 value ++ rest :=
    numberText_space (by decide) (by decide) (by decide)
  have skipDevice : ∀ value {rest}, EndsNumber rest →
      skipNumber 16 (some (numberText 16 2 value ++ rest)) = some rest :=
    fun value _ => skipNumber_number (by decide) (by decide) (by decide) value
  have skipNode : ∀ value {rest}, EndsNumber rest →
      skipNumber 10 (some (numberText 10 1 value ++ rest)) = some rest :=
    fun value _ => skipNumber_number (by decide) (by decide) (by decide) value
  have flags : ∀ rest, (flagChar region.r 'r' :: rest).dropWhile isSpace = flagChar region.r 'r' :: rest :=
    fun rest => flagged _ _ rest rfl
  simp only [MapsRegion.text, List.append_assoc, List.cons_append]
  simp only [sscanfMaps, scanLong_number _ _ (dash _), skipChar, if_true, scanLong_number _ _ (space _),
    skipSpace, Option.map_some, List.dropWhile_cons_of_pos blank, flags, scanChar, hex,
    device, skipDevice _ (colon _), skipDevice _ (space _), node, List.replicate_succ, List.cons_append,
    skipNode _ (space _), dropWhile_spaces, cleared]
  have path := scanString_path region.path
  by_cases short : (firstWord region.path).length < 256
  · rw [if_pos short] at path ⊢
    obtain ⟨found, scanned, isPath⟩ := Option.map_eq_some_iff.mp path
    rw [scanned, Option.map_some, isPath]
    rfl
  · rw [if_neg short] at path ⊢
    rw [Option.map_eq_none_iff.mp path, Option.map_none]

/-! The whole map. -/

/-- A line that the buffer of the parser holds. -/
structure MapsLine where
  region : MapsRegion
  gap : Nat
  plain : ∀ c ∈ region.path, c ≠ '\n' ∧ c ≠ '\x00'
  fits : (region.text gap).length < 511

def MapsLine.text (line : MapsLine) : Text := line.region.text line.gap

def mapsText (lines : List MapsLine) : Text := lines.flatMap fun line => line.text ++ ['\n']

theorem numberText_plain {base : Nat} (proper : 1 < base) (small : base ≤ 16) (width value : Nat) :
    ∀ c ∈ numberText base width value, c ≠ '\n' ∧ c ≠ '\x00' := by
  intro c member
  rw [numberText_digits] at member
  obtain ⟨digit, isDigit, rfl⟩ := List.mem_map.mp member
  have plain : ∀ digit < 16, digitChar digit ≠ '\n' ∧ digitChar digit ≠ '\x00' := by decide
  exact plain digit (Nat.lt_of_lt_of_le (numberDigits_lt proper width value digit isDigit) small)

theorem MapsLine.plain_text (line : MapsLine) : ∀ c ∈ line.text, c ≠ '\n' ∧ c ≠ '\x00' := by
  have flags : ∀ flag, (flagChar flag 'r' ≠ '\n' ∧ flagChar flag 'r' ≠ '\x00') ∧
      (flagChar flag 'w' ≠ '\n' ∧ flagChar flag 'w' ≠ '\x00') ∧
        (flagChar flag 'x' ≠ '\n' ∧ flagChar flag 'x' ≠ '\x00') ∧
          (if flag = true then 'p' else 's') ≠ '\n' ∧ (if flag = true then 'p' else 's') ≠ '\x00' := by decide
  have hex : ∀ width value, ∀ c ∈ numberText 16 width value, c ≠ '\n' ∧ c ≠ '\x00' :=
    numberText_plain (by decide) (by decide)
  intro c member
  simp only [MapsLine.text, MapsRegion.text, List.mem_append, List.mem_cons, List.mem_replicate] at member
  rcases member with inStart | rfl | inStop | rfl | rfl | rfl | rfl | rfl | rfl | inOffset | rfl | inMajor |
    rfl | inMinor | rfl | (inNode | ⟨_, rfl⟩) | inPath
  · exact hex _ _ c inStart
  · decide
  · exact hex _ _ c inStop
  · decide
  · exact (flags _).1
  · exact (flags _).2.1
  · exact (flags _).2.2.1
  · exact (flags _).2.2.2
  · decide
  · exact hex _ _ c inOffset
  · decide
  · exact hex _ _ c inMajor
  · decide
  · exact hex _ _ c inMinor
  · decide
  · exact numberText_plain (by decide) (by decide) _ _ c inNode
  · decide
  · exact line.plain c inPath

theorem fgets_text (line : MapsLine) (rest : Text) :
    fgets 512 ⟨line.text ++ '\n' :: rest, false⟩ = (some (line.text ++ ['\n']), ⟨rest, false⟩) := by
  have read := readLine_newline rest line.fits fun c member => (line.plain_text c member).1
  have noNul : (line.text ++ ['\n']).takeWhile (· ≠ '\x00') = line.text ++ ['\n'] := by
    rw [List.takeWhile_append_of_pos fun c member => by simp [(line.plain_text c member).2]]
    rfl
  have read' : readLine (512 - 1) (line.text ++ '\n' :: rest) = (line.text ++ ['\n'], ⟨rest, false⟩) := read
  obtain ⟨c, more, starts⟩ := List.exists_cons_of_ne_nil (l := line.text ++ ['\n']) (by simp)
  rw [fgets, read']
  rw [starts] at noNul ⊢
  simp only [noNul]

/-- The turns for a list of lines. -/
theorem procmapLoop_lines (lines : List MapsLine) (fuel : Nat) (vars : ProcmapVars) :
    procmapLoop (lines.length + (fuel + 1)) ⟨mapsText lines, false⟩ vars =
      if ∀ line ∈ lines, (firstWord line.region.path).length < 256 then
        some (lines.map (·.region.entry))
      else none := by
  induction lines generalizing vars with
  | nil => rfl
  | cons line lines ih =>
      have text : mapsText (line :: lines) = line.text ++ '\n' :: mapsText lines := by simp [mapsText]
      rw [text, List.length_cons, Nat.add_right_comm, procmapLoop, if_neg (by simp), fgets_text]
      have cleared : ({ vars with path := [] } : ProcmapVars).path = [] := rfl
      simp only [MapsLine.text, sscanfMaps_text line.region line.gap cleared]
      by_cases short : (firstWord line.region.path).length < 256
      · rw [if_pos short, Option.bind_some, ih, MapsRegion.vars_entry]
        simp only [List.forall_mem_cons, short, true_and, List.map_cons]
        split <;> rfl
      · rw [if_neg short, Option.bind_none, if_neg fun all => short (all line List.mem_cons_self)]

theorem length_le_mapsText (lines : List MapsLine) : lines.length ≤ (mapsText lines).length := by
  induction lines with
  | nil => simp
  | cons line lines ih =>
      simp only [mapsText, List.flatMap_cons, List.length_append, List.length_cons] at ih ⊢
      omega

/-- The file has more characters than lines. -/
theorem duneProcmapIterate_loop (uninit : ProcmapVars) (lines : List MapsLine) : ∃ fuel,
    duneProcmapIterate uninit (mapsText lines) =
      procmapLoop (lines.length + (fuel + 1)) ⟨mapsText lines, false⟩ uninit := by
  have enough := length_le_mapsText lines
  refine ⟨(mapsText lines).length - lines.length, ?_⟩
  rw [duneProcmapIterate]
  congr 1
  omega

theorem mapsText_listed (uninit : ProcmapVars) {lines : List MapsLine}
    (short : ∀ line ∈ lines, (firstWord line.region.path).length < 256) :
    duneProcmapIterate uninit (mapsText lines) = some (lines.map (·.region.entry)) := by
  obtain ⟨fuel, loop⟩ := duneProcmapIterate_loop uninit lines
  rw [loop, procmapLoop_lines, if_pos short]

/-- The callback sees the regions of the process in order, with their addresses, their rights and their
types. A path whose first word does not fit overflows the buffer, and nothing else does. -/
theorem procmap_lists_regions (uninit : ProcmapVars) (lines : List MapsLine) :
    duneProcmapIterate uninit (mapsText lines) =
      if ∀ line ∈ lines, (firstWord line.region.path).length < 256 then
        some (lines.map (·.region.entry))
      else none := by
  obtain ⟨fuel, loop⟩ := duneProcmapIterate_loop uninit lines
  rw [loop, procmapLoop_lines]

end RdmaPaging
