import RdmaPaging.FirewallCore

/-!
What a rules file says, and what the firewall makes of it. The lines of a file are parsed
into a list with the last rule first, so the first rule of the list that matches is the last
one of the file.
-/

namespace RdmaPaging

/-- A string that `%s` reads into a buffer of `size` bytes. -/
structure IsWord (size : Nat) (text : Text) : Prop where
  nonempty : text ≠ []
  fits : text.length < size
  plain : ∀ c ∈ text, isSpace c = false ∧ c ≠ '\x00'

/-- The blanks between two words. -/
structure Gap where
  text : Text
  nonempty : text ≠ []
  blank : ∀ c ∈ text, c = ' ' ∨ c = '\t'

def IsPortNumber (text : Text) : Prop :=
  (∀ c ∈ text, isDigit 10 c = true) ∧ 1 ≤ atoi text ∧ atoi text ≤ 65535

/-- A port: `*` or a number from 1 to 65535. -/
structure PortText where
  text : Text
  word : IsWord 8 text
  valid : text = "*".toList ∨ IsPortNumber text

/-- An IPv4 address or mask with its value. -/
structure AddrText where
  text : Text
  word : IsWord 20 text
  addr : BitVec 32
  valid : inetParts 4 [] text = some addr

inductive RuleLine
  | allowBind (gap : Gap) (port : PortText)
  | connect (allow : Bool) (gap : Gap) (port : PortText) (second : Gap) (ip : AddrText)
      (third : Gap) (mask : AddrText)
  | comment (text : Text) (plain : ∀ c ∈ text, c ≠ '\n' ∧ c ≠ '\x00')
  | blank

def connectKeyword (allow : Bool) : Text := if allow then strAllowConnect else strDenyConnect

@[grind =] def RuleLine.text : RuleLine → Text
  | .allowBind gap port => strAllowBind ++ (gap.text ++ port.text)
  | .connect allow gap port second ip third mask => connectKeyword allow ++ (gap.text ++ (port.text ++
      (second.text ++ (ip.text ++ (third.text ++ mask.text)))))
  | .comment text _ => '#' :: text
  | .blank => []

/-- A file of well-formed lines that fit into the buffer of the parser. The last line may
lack its newline. -/
structure RulesFile where
  lines : List RuleLine
  last : Option RuleLine
  fits : ∀ line ∈ lines ++ last.toList, line.text.length < 99

def linesText (lines : List RuleLine) : Text := lines.flatMap fun line => line.text ++ ['\n']

def RulesFile.text (file : RulesFile) : Text :=
  linesText file.lines ++ (file.last.map RuleLine.text).getD []

/-- A connect rule as its line states it. -/
structure ConnectRule where
  allow : Bool
  port : PortText
  ip : BitVec 32
  mask : BitVec 32

@[grind =] def RuleLine.connectRule? : RuleLine → Option ConnectRule
  | .connect allow _ port _ ip _ mask => some ⟨allow, port, ip.addr, mask.addr⟩
  | _ => none

/-- The connect rules, the last one of the file first. -/
def RulesFile.connectRules (file : RulesFile) : List ConnectRule :=
  ((file.lines ++ file.last.toList).filterMap RuleLine.connectRule?).reverse

def ConnectRule.forPort (rule : ConnectRule) (port : BitVec 16) : Bool :=
  rule.port.text = "*".toList || atoi rule.port.text = port.toNat

/-- The rule's network contains the address. -/
def ConnectRule.contains (rule : ConnectRule) (ip : BitVec 32) : Bool :=
  ip &&& rule.mask = rule.ip &&& rule.mask

/-- The test that `firewall_check_connect` makes instead. -/
def ConnectRule.passes (rule : ConnectRule) (ip : BitVec 32) : Bool :=
  ip &&& rule.ip = ip &&& rule.mask

/-- The verdict of the first rule of a list that meets a test, and false if there is none. -/
def verdict (test : ConnectRule → Bool) (rules : List ConnectRule) : Bool :=
  (rules.find? test).any ConnectRule.allow

/-- The verdict of the last connect rule of the file for the port whose network contains the
address. -/
def RulesFile.decides (file : RulesFile) (port : BitVec 16) (ip : BitVec 32) : Bool :=
  verdict (fun rule => rule.forPort port && rule.contains ip) file.connectRules

theorem readLine_newline {count : Nat} {line : Text} (rest : Text) (fits : line.length < count)
    (oneLine : ∀ c ∈ line, c ≠ '\n') :
    readLine count (line ++ '\n' :: rest) = (line ++ ['\n'], ⟨rest, false⟩) := by
  induction line generalizing count with
  | nil =>
      obtain ⟨more, rfl⟩ : ∃ more, count = more + 1 := ⟨count - 1, by simp at fits; omega⟩
      simp [readLine]
  | cons c line ih =>
      obtain ⟨more, rfl⟩ : ∃ more, count = more + 1 := ⟨count - 1, by simp at fits; omega⟩
      have first : c ≠ '\n' := oneLine c (by simp)
      have shorter : line.length < more := by simpa using fits
      rw [List.cons_append, readLine, if_neg first,
        ih shorter fun other member => oneLine other (by simp [member])]
      rfl

theorem readLine_last {count : Nat} {line : Text} (fits : line.length < count)
    (oneLine : ∀ c ∈ line, c ≠ '\n') : readLine count line = (line, ⟨[], true⟩) := by
  induction line generalizing count with
  | nil =>
      obtain ⟨more, rfl⟩ : ∃ more, count = more + 1 := ⟨count - 1, by simp at fits; omega⟩
      rfl
  | cons c line ih =>
      obtain ⟨more, rfl⟩ : ∃ more, count = more + 1 := ⟨count - 1, by simp at fits; omega⟩
      have first : c ≠ '\n' := oneLine c (by simp)
      have shorter : line.length < more := by simpa using fits
      rw [readLine, if_neg first, ih shorter fun other member => oneLine other (by simp [member])]

/-- A line ends in a newline, or at the end of the file. -/
def IsLineEnd (ending : Text) : Prop := ending = ['\n'] ∨ ending = []

theorem Gap.space (gap : Gap) : ∀ c ∈ gap.text, isSpace c = true := by
  intro c member
  rcases gap.blank c member with rfl | rfl <;> decide

theorem Gap.starts (gap : Gap) (rest : Text) : (gap.text ++ rest).head?.any isSpace = true := by
  obtain ⟨c, more, isGap⟩ := List.exists_cons_of_ne_nil gap.nonempty
  have space := gap.space c (by simp [isGap])
  simp [isGap, space]

theorem IsLineEnd.space {ending : Text} (isEnd : IsLineEnd ending) :
    ending = [] ∨ ending.head?.any isSpace = true := by
  rcases isEnd with rfl | rfl
  · exact Or.inr (by decide)
  · exact Or.inl rfl

/-! What the parser makes of a line. -/

/-- Two texts that differ at some position of both. -/
@[grind =] def clash : Text → Text → Bool
  | a :: first, b :: second => a ≠ b || clash first second
  | _, _ => false

theorem isPrefixOf_clash {first second : Text} (rest : Text) (clashes : clash first second = true) :
    first.isPrefixOf (second ++ rest) = false := by
  induction first generalizing second with
  | nil => simp [clash] at clashes
  | cons a first ih =>
      cases second with
      | nil => simp [clash] at clashes
      | cons b second =>
          rw [List.cons_append, List.isPrefixOf_cons_cons]
          by_cases same : a = b
          · have later : clash first second = true := by simpa [clash, same] using clashes
            rw [ih later, Bool.and_false]
          · simp [same]

theorem isPrefixOf_self (keyword rest : Text) : keyword.isPrefixOf (keyword ++ rest) = true := by
  rw [List.isPrefixOf_iff_prefix]
  exact List.prefix_append keyword rest

theorem keyword_ne_newline {keyword : Text} (long : 2 ≤ keyword.length) (rest : Text) :
    keyword ++ rest ≠ "\n".toList := by
  intro same
  have lengths := congrArg List.length same
  rw [List.length_append] at lengths
  have one : "\n".toList.length = 1 := by decide
  omega

section Dispatch

variable (uninit : FwRule) (rest : Text) (state : FwParse)

theorem parseLine_allowBind : parseLine uninit (strAllowBind ++ rest) state =
    parseBind uninit (strAllowBind ++ rest) state := by
  have notComment : strComment.isPrefixOf (strAllowBind ++ rest) = false :=
    isPrefixOf_clash rest (by decide)
  rw [parseLine, if_neg (by simp [notComment]), if_neg (keyword_ne_newline (by decide) rest),
    if_pos (isPrefixOf_self _ rest)]

theorem parseLine_allowConnect : parseLine uninit (strAllowConnect ++ rest) state =
    parseConnect .connectAllow strAllowConnect (strAllowConnect ++ rest) state := by
  have notComment : strComment.isPrefixOf (strAllowConnect ++ rest) = false :=
    isPrefixOf_clash rest (by decide)
  have notBind : strAllowBind.isPrefixOf (strAllowConnect ++ rest) = false :=
    isPrefixOf_clash rest (by decide)
  rw [parseLine, if_neg (by simp [notComment]), if_neg (keyword_ne_newline (by decide) rest),
    if_neg (by simp [notBind]), if_pos (isPrefixOf_self _ rest)]

theorem parseLine_denyConnect : parseLine uninit (strDenyConnect ++ rest) state =
    parseConnect .connectDeny strDenyConnect (strDenyConnect ++ rest) state := by
  have notComment : strComment.isPrefixOf (strDenyConnect ++ rest) = false :=
    isPrefixOf_clash rest (by decide)
  have notBind : strAllowBind.isPrefixOf (strDenyConnect ++ rest) = false :=
    isPrefixOf_clash rest (by decide)
  have notAllow : strAllowConnect.isPrefixOf (strDenyConnect ++ rest) = false :=
    isPrefixOf_clash rest (by decide)
  rw [parseLine, if_neg (by simp [notComment]), if_neg (keyword_ne_newline (by decide) rest),
    if_neg (by simp [notBind]), if_neg (by simp [notAllow]), if_pos (isPrefixOf_self _ rest)]

end Dispatch

theorem forall_of_all {text : Text} {p : Char → Prop} [DecidablePred p]
    (all : (text.all fun c => decide (p c)) = true) : ∀ c ∈ text, p c := by
  simpa using all

/-- Every character of a line is one of the line. -/
theorem RuleLine.plain (line : RuleLine) : ∀ c ∈ line.text, c ≠ '\n' ∧ c ≠ '\x00' := by
  have wordPlain : ∀ {size : Nat} {word : Text}, IsWord size word → ∀ c ∈ word, c ≠ '\n' ∧ c ≠ '\x00' := by
    intro size word isWord c member
    obtain ⟨notSpace, notNul⟩ := isWord.plain c member
    refine ⟨?_, notNul⟩
    rintro rfl
    exact absurd notSpace (by decide)
  have gapPlain : ∀ gap : Gap, ∀ c ∈ gap.text, c ≠ '\n' ∧ c ≠ '\x00' := by
    intro gap c member
    rcases gap.blank c member with rfl | rfl <;> decide
  have bindPlain : ∀ c ∈ strAllowBind, c ≠ '\n' ∧ c ≠ '\x00' := forall_of_all (by decide)
  have connectPlain : ∀ allow, ∀ c ∈ connectKeyword allow, c ≠ '\n' ∧ c ≠ '\x00' :=
    fun allow => forall_of_all (by cases allow <;> decide)
  cases line with
  | allowBind gap port =>
      intro c member
      simp only [RuleLine.text, List.mem_append] at member
      rcases member with inKeyword | inGap | inPort
      · exact bindPlain c inKeyword
      · exact gapPlain gap c inGap
      · exact wordPlain port.word c inPort
  | connect allow gap port second ip third mask =>
      intro c member
      simp only [RuleLine.text, List.mem_append] at member
      rcases member with inKeyword | inGap | inPort | inSecond | inIp | inThird | inMask
      · exact connectPlain allow c inKeyword
      · exact gapPlain gap c inGap
      · exact wordPlain port.word c inPort
      · exact gapPlain second c inSecond
      · exact wordPlain ip.word c inIp
      · exact gapPlain third c inThird
      · exact wordPlain mask.word c inMask
  | comment text plain =>
      intro c member
      rcases List.mem_cons.mp member with rfl | inText
      · decide
      · exact plain c inText
  | blank => simp [RuleLine.text]

/-! What the parser makes of a file. -/

/-- The rule as the parser enters it. -/
def ConnectRule.entered (rule : ConnectRule) : FwRule :=
  ⟨if rule.allow then .connectAllow else .connectDeny, parsePort rule.port.text, rule.ip, rule.mask⟩

def firstByte : AddrText := ⟨"255.0.0.0".toList, ⟨by decide, by decide, forall_of_all (by decide)⟩, 255#32, by decide⟩

def parseStart : FwParse := ⟨[], [], [], 0, []⟩

def blankRule : FwRule := ⟨.bindAllow, 0, 0, 0⟩

end RdmaPaging
