import Mathlib.Data.List.TakeWhile
import RdmaPaging.FirewallRules

/-!
What the lines of any rules file say, and how `firewall_parse` reads them: a line of up to 98 characters at
once, a longer one in blocks of 99.
-/

namespace RdmaPaging

/-- The lines of a file. The last one may lack its newline. -/
@[grind =] def linesOf (text : Text) : List Text :=
  let parts := text.splitOnP (· = '\n')
  if parts.getLast? = some [] then parts.dropLast else parts

@[grind =] def wordsOf (text : Text) : List Text := (text.splitOnP isSpace).filter (· ≠ [])

/-- `*` or a number from 1 to 65535. -/
def isPort (text : Text) : Bool :=
  text = "*".toList || (text.all (isDigit 10) && 1 ≤ atoi text && atoi text ≤ 65535)

def isAddr (text : Text) : Bool := (inetParts 4 [] text).isSome

/-- A rule as its line states it. -/
inductive LineRule
  | bind (port : Text)
  | connect (type : FwType) (port ip mask : Text)
  deriving DecidableEq

/-- The words after a keyword that ends at a blank. -/
def argsOf (keyword line : Text) : List Text :=
  if keyword.isPrefixOf line ∧ (line.drop keyword.length).head?.any isSpace then
    wordsOf (line.drop keyword.length)
  else []

def bindOf (line : Text) : Option LineRule :=
  match argsOf strAllowBind line with
  | [port] => if isPort port then some (.bind port) else none
  | _ => none

def connectOf (type : FwType) (keyword line : Text) : Option LineRule :=
  match argsOf keyword line with
  | [port, ip, mask] =>
      if isPort port && isAddr ip && isAddr mask then some (.connect type port ip mask) else none
  | _ => none

/-- The complete rule of a line. -/
def ruleOf (line : Text) : Option LineRule :=
  ((bindOf line).or (connectOf .connectAllow strAllowConnect line)).or
    (connectOf .connectDeny strDenyConnect line)

/-- Blank, a comment, or a complete rule. -/
def wellFormed (line : Text) : Bool :=
  line = [] || strComment.isPrefixOf line || (ruleOf line).isSome

/-- The port that is entered for a text: any port for `*` and for no other text. -/
def PortSays (text : Text) (port : BitVec 16) : Prop :=
  (port = fwPortAny ↔ text = "*".toList) ∧ (text ≠ "*".toList → (port.toNat : Int) = atoi text)

/-- The rule that is entered for a line. A bind rule has no address. -/
def LineRule.Says : LineRule → FwRule → Prop
  | .bind port, r => r.type = .bindAllow ∧ PortSays port r.port
  | .connect type port ip mask, r => r.type = type ∧ PortSays port r.port ∧
      inetParts 4 [] ip = some r.ip ∧ inetParts 4 [] mask = some r.mask

/-- The lines up to the first that is not well-formed. -/
def readUpTo : List Text → List Text
  | [] => []
  | line :: rest => if wellFormed line then line :: readUpTo rest else [line]

/-- The rules of the lines before the first that is not well-formed, the last one first. -/
def statedRules (lines : List Text) : List LineRule :=
  ((lines.takeWhile wellFormed).filterMap ruleOf).reverse

/-- What a line comes to depends on nothing but the line: whatever the buffers hold and whatever follows,
a well-formed line enters its rule and the parser goes on behind it, and any other ends the parse. -/
def LineLocal (line : Text) : Prop := ∀ uninit state,
  if wellFormed line then
    ∃ next rules, next.rules = rules ++ state.rules ∧ List.Forall₂ LineRule.Says (ruleOf line).toList rules ∧
      ∀ rest, firewallParse uninit (some (line ++ '\n' :: rest)) state = firewallParse uninit (some rest) next
  else ∀ rest, firewallParse uninit (some (line ++ '\n' :: rest)) state = some (-1, state.rules)

/-- The parse is that of the lines: 0 for well-formed lines only, with the rules of the lines in reverse. -/
structure ParsesByLine (text : Text) : Prop where
  result : ∀ uninit state, state.rules = [] → ∃ ret rules,
    firewallParse uninit (some text) state = some (ret, rules) ∧
      (ret = 0 ↔ ∀ line ∈ linesOf text, wellFormed line = true) ∧
        List.Forall₂ LineRule.Says (statedRules (linesOf text)) rules
  lineLocal : ∀ line ∈ readUpTo (linesOf text), LineLocal line

@[grind =] def hasKeyword (line : Text) : Bool :=
  strAllowBind.isPrefixOf line || strAllowConnect.isPrefixOf line || strDenyConnect.isPrefixOf line

/-- The words have room in the buffers of the parser. -/
def LineRule.Fits : LineRule → Prop
  | .bind port => port.length < 8
  | .connect _ port ip mask => port.length < 8 ∧ ip.length < 20 ∧ mask.length < 20

/-- Every block of 99 characters of a comment starts as a comment, a rule has room in the buffers, and a
line that is not well-formed has no keyword. -/
def LineFine (line : Text) : Prop :=
  if strComment.isPrefixOf line then
    ∀ block, 99 * block < line.length → strComment.isPrefixOf (line.drop (99 * block)) = true
  else
    match ruleOf line with
    | some rule => line.length ≤ 99 ∧ rule.Fits
    | none => hasKeyword line = false

/-! Words. -/

theorem wordsOf_space {c : Char} (space : isSpace c = true) (text : Text) :
    wordsOf (c :: text) = wordsOf text := by
  rw [wordsOf, ← List.nil_append (c :: text), List.splitOnP_append_cons [] text space, List.splitOnP_nil]
  rfl

theorem wordsOf_spaces (text : Text) : wordsOf (text.dropWhile isSpace) = wordsOf text := by
  induction text with
  | nil => rfl
  | cons c text ih =>
      by_cases space : isSpace c = true
      · rw [List.dropWhile_cons_of_pos space, ih, wordsOf_space space]
      · rw [List.dropWhile_cons_of_neg space]

theorem wordsOf_append_space {c : Char} (space : isSpace c = true) (text : Text) :
    wordsOf (text ++ [c]) = wordsOf text := by
  rw [wordsOf, List.splitOnP_append_cons text [] space, List.splitOnP_nil, List.filter_append]
  exact List.append_nil _

theorem wordsOf_word {word : Text} (nonempty : word ≠ []) (plain : ∀ c ∈ word, isSpace c = false)
    {rest : Text} (ends : rest = [] ∨ rest.head?.any isSpace = true) :
    wordsOf (word ++ rest) = word :: wordsOf rest := by
  cases rest with
  | nil =>
      rw [List.append_nil, wordsOf, List.splitOnP_eq_singleton plain,
        List.filter_cons_of_pos (by simpa using nonempty)]
      rfl
  | cons c rest =>
      have space : isSpace c = true := by simpa using ends
      rw [wordsOf_space space, wordsOf, List.splitOnP_append_cons_of_forall_mem plain c space,
        List.filter_cons_of_pos (by simpa using nonempty)]
      rfl

/-- What `%s` reads is the first word, and the other words are left. -/
theorem scanString_words (size : Nat) {text word : Text} {more : List Text} (old : Text)
    (words : wordsOf text = word :: more) :
    (word.length < size → ∃ rest, wordsOf rest = more ∧
        scanString size old (some text) = some (word, some rest)) ∧
      (size ≤ word.length → scanString size old (some text) = none) := by
  rw [← wordsOf_spaces] at words
  have stops := List.head?_dropWhile_not isSpace text
  rw [scanString]
  generalize text.dropWhile isSpace = found at words stops
  cases found with
  | nil => exact absurd words (List.cons_ne_nil word more).symm
  | cons c found =>
      have plain : isSpace c = false := by simpa using stops
      have split := List.takeWhile_append_dropWhile (p := (!isSpace ·)) (l := c :: found)
      have ends : (c :: found).dropWhile (!isSpace ·) = [] ∨
          ((c :: found).dropWhile (!isSpace ·)).head?.any isSpace = true := by
        have after := List.head?_dropWhile_not (!isSpace ·) (c :: found)
        generalize (c :: found).dropWhile (!isSpace ·) = rest at after
        cases rest with
        | nil => exact .inl rfl
        | cons d rest => exact .inr (by simpa using after)
      have nonempty : (c :: found).takeWhile (!isSpace ·) ≠ [] := by
        rw [List.takeWhile_cons_of_pos (by rw [plain]; rfl)]
        exact List.cons_ne_nil _ _
      have inside : ∀ d ∈ (c :: found).takeWhile (!isSpace ·), isSpace d = false := by
        intro d member
        simpa using List.mem_takeWhile_imp member
      rw [← split, wordsOf_word nonempty inside ends] at words
      obtain ⟨first, others⟩ := List.cons.inj words
      simp only [first]
      exact ⟨fun fits => ⟨_, others, if_pos fits⟩, fun excess => if_neg (Nat.not_lt_of_le excess)⟩

theorem mem_splitOnP {p : Char → Bool} {text : Text} {c : Char} (member : c ∈ text) :
    p c = true ∨ ∃ part ∈ text.splitOnP p, c ∈ part := by
  induction text with
  | nil => exact absurd member List.not_mem_nil
  | cons d text ih =>
      rw [List.splitOnP_cons_eq_if_modifyHead]
      by_cases separates : p d = true
      · rw [if_pos separates]
        obtain rfl | later := List.mem_cons.mp member
        · exact .inl separates
        · exact (ih later).imp_right fun ⟨part, present, inside⟩ =>
            ⟨part, List.mem_cons_of_mem _ present, inside⟩
      · rw [if_neg separates]
        obtain ⟨first, parts, same⟩ := List.exists_cons_of_ne_nil (List.splitOnP_ne_nil p text)
        rw [same, List.modifyHead_cons]
        obtain rfl | later := List.mem_cons.mp member
        · exact .inr ⟨_, List.mem_cons_self, List.mem_cons_self⟩
        · obtain separate | ⟨part, present, inside⟩ := ih later
          · exact .inl separate
          · rw [same] at present
            obtain rfl | present := List.mem_cons.mp present
            · exact .inr ⟨_, List.mem_cons_self, List.mem_cons_of_mem _ inside⟩
            · exact .inr ⟨part, List.mem_cons_of_mem _ present, inside⟩

/-- Every character is a blank or one of a word. -/
theorem mem_wordsOf {text : Text} {c : Char} (member : c ∈ text) :
    isSpace c = true ∨ ∃ word ∈ wordsOf text, c ∈ word := by
  refine (mem_splitOnP member).imp_right fun ⟨part, present, inside⟩ => ⟨part, ?_, inside⟩
  exact List.mem_filter.mpr ⟨present, by simpa using List.ne_nil_of_mem inside⟩

theorem splitOnP_plain {p : Char → Bool} {text part : Text} (member : part ∈ text.splitOnP p) :
    ∀ c ∈ part, p c = false := by
  induction text generalizing part with
  | nil =>
      rw [List.splitOnP_nil, List.mem_singleton] at member
      exact member ▸ fun c inside => absurd inside List.not_mem_nil
  | cons d text ih =>
      rw [List.splitOnP_cons_eq_if_modifyHead] at member
      by_cases separates : p d = true
      · rw [if_pos separates] at member
        obtain rfl | later := List.mem_cons.mp member
        · exact fun c inside => absurd inside List.not_mem_nil
        · exact ih later
      · rw [if_neg separates] at member
        obtain ⟨first, parts, same⟩ := List.exists_cons_of_ne_nil (List.splitOnP_ne_nil p text)
        rw [same, List.modifyHead_cons] at member
        obtain rfl | later := List.mem_cons.mp member
        · intro c inside
          obtain rfl | inFirst := List.mem_cons.mp inside
          · simpa using separates
          · exact ih (same ▸ List.mem_cons_self) c inFirst
        · exact ih (same ▸ List.mem_cons_of_mem _ later)

/-- A word has no blank. -/
theorem word_plain {text word : Text} (member : word ∈ wordsOf text) : ∀ c ∈ word, isSpace c = false :=
  splitOnP_plain (List.mem_filter.mp member).1

/-! Lines. -/

/-- A line ends at its newline, or where the file ends. -/
def EndsLine (ending rest : Text) : Prop := ending = ['\n'] ∨ ending = [] ∧ rest = []

theorem linesOf_newline {line : Text} (oneLine : ∀ c ∈ line, c ≠ '\n') (rest : Text) :
    linesOf (line ++ '\n' :: rest) = line :: linesOf rest := by
  obtain ⟨first, parts, same⟩ := List.exists_cons_of_ne_nil (List.splitOnP_ne_nil (· = '\n') rest)
  have split : (line ++ '\n' :: rest).splitOnP (· = '\n') = line :: first :: parts := by
    rw [← same]
    exact List.splitOnP_append_cons_of_forall_mem (fun c member => by simpa using oneLine c member) _
      (by decide) rest
  rw [linesOf, linesOf, split, same, List.getLast?_cons_cons]
  split
  · rw [List.dropLast_cons_cons]
  · rfl

theorem linesOf_last {line : Text} (oneLine : ∀ c ∈ line, c ≠ '\n') (nonempty : line ≠ []) :
    linesOf line = [line] := by
  have split : line.splitOnP (· = '\n') = [line] :=
    List.splitOnP_eq_singleton fun c member => by simpa using oneLine c member
  rw [linesOf, split]
  exact if_neg (by simpa using nonempty)

/-- A text is empty, or a line and what follows it. -/
theorem line_cases (text : Text) : text = [] ∨ ∃ line ending rest, text = line ++ (ending ++ rest) ∧
    (∀ c ∈ line, c ≠ '\n') ∧ EndsLine ending rest ∧ line ++ ending ≠ [] ∧
      linesOf text = line :: linesOf rest ∧ rest.length < text.length := by
  by_cases empty : text = []
  · exact .inl empty
  · refine .inr ?_
    have split := List.takeWhile_append_dropWhile (p := (· ≠ '\n')) (l := text)
    have stops := List.head?_dropWhile_not (· ≠ '\n') text
    have oneLine : ∀ c ∈ text.takeWhile (· ≠ '\n'), c ≠ '\n' := fun c member => by
      simpa using List.mem_takeWhile_imp member
    generalize text.takeWhile (· ≠ '\n') = line at split oneLine
    generalize text.dropWhile (· ≠ '\n') = tail at split stops
    cases tail with
    | nil =>
        rw [List.append_nil] at split
        obtain rfl := split
        refine ⟨line, [], [], by simp, oneLine, .inr ⟨rfl, rfl⟩, by simpa using empty, ?_, ?_⟩
        · exact linesOf_last oneLine empty
        · exact List.length_pos_of_ne_nil empty
    | cons c rest =>
        obtain rfl : c = '\n' := by simpa using stops
        obtain rfl := split
        refine ⟨line, ['\n'], rest, rfl, oneLine, .inl rfl, by simp, linesOf_newline oneLine rest, ?_⟩
        rw [List.length_append, List.length_cons]
        omega

theorem linesOf_plain {text line : Text} (member : line ∈ linesOf text) : ∀ c ∈ line, c ≠ '\n' := by
  have part : line ∈ text.splitOnP (· = '\n') := by
    rw [linesOf] at member
    split at member
    · exact List.mem_of_mem_dropLast member
    · exact member
  exact fun c inside => by simpa using splitOnP_plain part c inside

/-! Reading a file. -/

@[grind =] def untilNul (text : Text) : Text := text.takeWhile (· ≠ '\x00')

theorem readLine_append (count : Nat) (text : Text) :
    (readLine count text).1 ++ (readLine count text).2.rest = text := by
  induction count generalizing text with
  | zero => rfl
  | succ count ih =>
      cases text with
      | nil => rfl
      | cons c text =>
          rw [readLine]
          split
          · rfl
          · exact congrArg (c :: ·) (ih text)

theorem readLine_block {count : Nat} {line : Text} (long : count ≤ line.length)
    (oneLine : ∀ c ∈ line, c ≠ '\n') (tail : Text) :
    readLine count (line ++ tail) = (line.take count, ⟨line.drop count ++ tail, false⟩) := by
  induction count generalizing line with
  | zero => rfl
  | succ count ih =>
      cases line with
      | nil => exact absurd long (Nat.not_succ_le_zero _)
      | cons c line =>
          rw [List.cons_append, readLine, if_neg (oneLine c List.mem_cons_self),
            ih (Nat.le_of_succ_le_succ long) fun d member => oneLine d (List.mem_cons_of_mem _ member)]
          rfl

theorem fgets_some {size : Nat} {file : FwFile} {line : Text} {next : FwFile}
    (read : readLine (size - 1) file.rest = (line, next)) (nonempty : line ≠ []) :
    fgets size file = (some (untilNul line), next) := by
  rw [fgets, read]
  cases line with
  | nil => exact absurd rfl nonempty
  | cons c line => rfl

/-- What is read is gone from the file. -/
theorem fgets_shorter {size : Nat} {file next : FwFile} {str : Text}
    (read : fgets size file = (some str, next)) : next.rest.length < file.rest.length := by
  have whole := readLine_append (size - 1) file.rest
  rw [fgets] at read
  generalize readLine (size - 1) file.rest = result at whole read
  obtain ⟨line, after⟩ := result
  cases line with
  | nil => exact absurd (congrArg Prod.fst read).symm (Option.some_ne_none str)
  | cons c line =>
      obtain rfl : after = next := congrArg Prod.snd read
      have lengths := congrArg List.length whole
      simp only [List.length_append, List.length_cons] at lengths
      omega

theorem parseLoop_more (uninit : FwRule) {fuel : Nat} {file : FwFile} (state : FwParse)
    (enough : file.rest.length + 2 ≤ fuel) :
    parseLoop uninit (fuel + 1) file state = parseLoop uninit fuel file state := by
  induction fuel generalizing file state with
  | zero => exact absurd enough (by omega)
  | succ fuel ih =>
      rw [parseLoop, parseLoop]
      split
      · rfl
      · cases read : fgets 100 file with
        | mk result next =>
          cases result with
          | none => rfl
          | some str =>
              have shorter := fgets_shorter read
              dsimp only
              split
              · rfl
              · rfl
              next after same => exact ih after (by omega)

theorem parseLoop_enough (uninit : FwRule) {fuel : Nat} {file : FwFile} (state : FwParse)
    (enough : file.rest.length + 2 ≤ fuel) :
    parseLoop uninit fuel file state = parseLoop uninit (file.rest.length + 2) file state := by
  induction fuel, enough using Nat.le_induction with
  | base => rfl
  | succ fuel enough ih => rw [parseLoop_more uninit state enough, ih]

/-- What becomes of the parse after a turn on a string. -/
def afterTurn (uninit : FwRule) (rest : Text) : Option LineResult → Option (Int × List FwRule)
  | none => none
  | some (.returns ret state) => some (ret, state.rules)
  | some (.next state) => firewallParse uninit (some rest) state

section Turn

variable {uninit : FwRule} {state : FwParse} {line rest : Text}

theorem firewallParse_nil : firewallParse uninit (some []) state = some (0, state.rules) := rfl

/-- One turn of the parser. -/
theorem firewallParse_turn {text str : Text} {next : FwFile}
    (read : fgets 100 ⟨text, false⟩ = (some str, next)) (ended : next.eof = true → next.rest = []) :
    firewallParse uninit (some text) state = afterTurn uninit next.rest (parseLine uninit str state) := by
  have shorter := fgets_shorter read
  rw [firewallParse, parseLoop, if_neg Bool.false_ne_true, read]
  dsimp only
  cases parseLine uninit str state with
  | none => rfl
  | some result =>
      cases result with
      | returns ret after => rfl
      | next after =>
          rw [afterTurn, firewallParse]
          obtain ⟨rest, eof⟩ := next
          cases eof with
          | true =>
              obtain rfl : rest = [] := ended rfl
              rfl
          | false => exact parseLoop_enough uninit after (by dsimp only at shorter ⊢; omega)

theorem firewallParse_line {ending : Text} (short : line.length < 99) (oneLine : ∀ c ∈ line, c ≠ '\n')
    (ends : EndsLine ending rest) (nonempty : line ++ ending ≠ []) :
    firewallParse uninit (some (line ++ (ending ++ rest))) state =
      afterTurn uninit rest (parseLine uninit (untilNul (line ++ ending)) state) := by
  obtain rfl | ⟨rfl, rfl⟩ := ends
  · exact firewallParse_turn (fgets_some (readLine_newline rest short oneLine) nonempty) nofun
  · rw [List.append_nil] at nonempty ⊢
    rw [List.append_nil]
    exact firewallParse_turn (fgets_some (readLine_last short oneLine) nonempty) fun _ => rfl

/-- A line of 99 characters or more is read in blocks. -/
theorem firewallParse_block (long : 99 ≤ line.length) (oneLine : ∀ c ∈ line, c ≠ '\n') (tail : Text) :
    firewallParse uninit (some (line ++ tail)) state =
      afterTurn uninit (line.drop 99 ++ tail) (parseLine uninit (untilNul (line.take 99)) state) := by
  have nonempty : line.take 99 ≠ [] := by
    intro empty
    have length := congrArg List.length empty
    rw [List.length_take, List.length_nil] at length
    omega
  exact firewallParse_turn (fgets_some (readLine_block long oneLine tail) nonempty) nofun

end Turn

end RdmaPaging
