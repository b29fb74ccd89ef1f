import RdmaPaging.FirewallLines

/-!
Which lines the rule parser takes for what they say. A long line is parsed in blocks, as if each were a
line, and a rule that is not complete is entered all the same.
-/

namespace RdmaPaging

/-! A turn of the parser. -/

section Turn

variable {uninit : FwRule} {state : FwParse} {str line rest : Text}

theorem inetAton_nonneg (text : Text) (inp : BitVec 32) : ¬ (inetAton text inp).1 < 0 := by
  rw [inetAton]
  split
  · exact (by decide : ¬ (1 : Int) < 0)
  · exact Int.lt_irrefl 0

theorem parseBind_enters (uninit : FwRule) (str : Text) (state : FwParse) :
    parseBind uninit str state = none ∨ ∃ next rule,
      parseBind uninit str state = some (.next next) ∧ next.rules = rule :: state.rules := by
  rw [parseBind]
  split
  · exact .inl rfl
  · exact .inr ⟨_, _, rfl, rfl⟩

theorem parseConnect_enters (type : FwType) (keyword str : Text) (state : FwParse) :
    parseConnect type keyword str state = none ∨ ∃ next rule,
      parseConnect type keyword str state = some (.next next) ∧ next.rules = rule :: state.rules := by
  rw [parseConnect]
  cases scanString 8 state.port (some (str.drop keyword.length)) with
  | none => exact .inl rfl
  | some port =>
      dsimp only
      cases scanString 20 state.ip port.2 with
      | none => exact .inl rfl
      | some ip =>
          dsimp only
          cases scanString 20 state.mask ip.2 with
          | none => exact .inl rfl
          | some mask =>
              dsimp only
              rw [if_neg (inetAton_nonneg _ _), if_neg (inetAton_nonneg _ _)]
              exact .inr ⟨_, _, rfl, rfl⟩

/-- A string with a keyword enters a rule, unless a word overruns its buffer. -/
theorem parseLine_keyword (uninit : FwRule) (state : FwParse) (starts : hasKeyword str = true) :
    parseLine uninit str state = none ∨ ∃ next rule,
      parseLine uninit str state = some (.next next) ∧ next.rules = rule :: state.rules := by
  simp only [hasKeyword, Bool.or_eq_true, List.isPrefixOf_iff_prefix] at starts
  obtain (⟨rest, rfl⟩ | ⟨rest, rfl⟩) | ⟨rest, rfl⟩ := starts
  · rw [parseLine_allowBind]
    exact parseBind_enters uninit _ state
  · rw [parseLine_allowConnect]
    exact parseConnect_enters _ _ _ state
  · rw [parseLine_denyConnect]
    exact parseConnect_enters _ _ _ state

theorem parseLine_unknown (uninit : FwRule) (state : FwParse) (comment : strComment.isPrefixOf str = false)
    (blank : str ≠ "\n".toList) (unknown : hasKeyword str = false) :
    parseLine uninit str state = some (.returns (-1) state) := by
  simp only [hasKeyword, Bool.or_eq_false_iff] at unknown
  obtain ⟨⟨bind, allow⟩, deny⟩ := unknown
  rw [parseLine, comment, if_neg Bool.false_ne_true, if_neg blank, bind, if_neg Bool.false_ne_true, allow,
    if_neg Bool.false_ne_true, deny, if_neg Bool.false_ne_true]

theorem parseLine_skips (uninit : FwRule) (state : FwParse)
    (skips : strComment.isPrefixOf str = true ∨ str = "\n".toList) :
    parseLine uninit str state = some (.next state) := by
  rw [parseLine]
  split
  · rfl
  next comment => rw [if_pos (skips.resolve_left comment)]

theorem parseLine_grows (uninit : FwRule) (str : Text) (state : FwParse) :
    parseLine uninit str state = none ∨ ∃ next more, next.rules = more ++ state.rules ∧
      (parseLine uninit str state = some (.next next) ∨
        parseLine uninit str state = some (.returns (-1) next)) := by
  by_cases starts : hasKeyword str = true
  · obtain overrun | ⟨next, rule, same, rules⟩ := parseLine_keyword uninit state starts
    · exact .inl overrun
    · exact .inr ⟨next, [rule], rules, .inl same⟩
  · by_cases skips : strComment.isPrefixOf str = true ∨ str = "\n".toList
    · exact .inr ⟨state, [], rfl, .inl (parseLine_skips uninit state skips)⟩
    · obtain ⟨comment, blank⟩ := not_or.mp skips
      have unknown := parseLine_unknown uninit state (Bool.eq_false_iff.mpr comment) blank
        (Bool.eq_false_iff.mpr starts)
      exact .inr ⟨state, [], rfl, .inr unknown⟩

/-- No turn takes a rule back. -/
theorem parseLoop_grows {fuel : Nat} {file : FwFile} {ret : Int} {rules : List FwRule}
    (parsed : parseLoop uninit fuel file state = some (ret, rules)) :
    ∃ more, rules = more ++ state.rules := by
  induction fuel generalizing file state with
  | zero => exact absurd parsed.symm (Option.some_ne_none _)
  | succ fuel ih =>
      rw [parseLoop] at parsed
      split at parsed
      · exact ⟨[], (congrArg Prod.snd (Option.some.inj parsed)).symm⟩
      · generalize fgets 100 file = read at parsed
        obtain ⟨result, next⟩ := read
        cases result with
        | none => exact ⟨[], (congrArg Prod.snd (Option.some.inj parsed)).symm⟩
        | some str =>
            dsimp only at parsed
            obtain overrun | ⟨after, more, grown, same | same⟩ := parseLine_grows uninit str state
            · rw [overrun] at parsed
              exact absurd parsed.symm (Option.some_ne_none _)
            · rw [same] at parsed
              obtain ⟨others, all⟩ := ih parsed
              exact ⟨others ++ more, by rw [all, grown, List.append_assoc]⟩
            · rw [same] at parsed
              exact ⟨more, grown ▸ (congrArg Prod.snd (Option.some.inj parsed)).symm⟩

theorem firewallParse_grows {text : Text} {ret : Int} {rules : List FwRule}
    (parsed : firewallParse uninit (some text) state = some (ret, rules)) :
    ∃ more, rules = more ++ state.rules :=
  parseLoop_grows parsed

/-! The first block of a line. -/

theorem comment_iff (text : Text) : strComment.isPrefixOf text = true ↔ text.head? = some '#' := by
  cases text with
  | nil => exact ⟨nofun, nofun⟩
  | cons c text =>
      rw [show strComment = ['#'] from rfl, List.isPrefixOf_cons_cons, List.head?_cons]
      simp only [List.isPrefixOf_nil_left, Bool.and_true, beq_iff_eq, Option.some.injEq]
      exact eq_comm

theorem untilNul_head {text : Text} {c : Char} (plain : c ≠ '\x00') :
    (untilNul text).head? = some c ↔ text.head? = some c := by
  cases text with
  | nil => exact Iff.rfl
  | cons d text =>
      by_cases nul : d = '\x00'
      · subst nul
        rw [untilNul, List.takeWhile_cons_of_neg (by decide), List.head?_cons, Option.some.injEq]
        exact ⟨nofun, fun same => absurd same.symm plain⟩
      · rw [untilNul, List.takeWhile_cons_of_pos (by simpa using nul)]
        exact Iff.rfl

/-- What the first turn on a line reads. -/
def firstBlock (line ending : Text) : Text := if line.length < 99 then line ++ ending else line.take 99

/-- What it leaves. -/
@[grind =] def blocksLeft (line ending rest : Text) : Text :=
  if line.length < 99 then rest else line.drop 99 ++ (ending ++ rest)

section Block

variable {ending : Text}

theorem firewallParse_first (oneLine : ∀ c ∈ line, c ≠ '\n') (ends : EndsLine ending rest)
    (nonempty : line ≠ []) :
    firewallParse uninit (some (line ++ (ending ++ rest))) state =
      afterTurn uninit (blocksLeft line ending rest)
        (parseLine uninit (untilNul (firstBlock line ending)) state) := by
  rw [firstBlock, blocksLeft]
  split
  next short => exact firewallParse_line short oneLine ends (by simp [nonempty])
  next long => exact firewallParse_block (Nat.le_of_not_lt long) oneLine _

theorem firstBlock_head (nonempty : line ≠ []) : (firstBlock line ending).head? = line.head? := by
  obtain ⟨c, more, rfl⟩ := List.exists_cons_of_ne_nil nonempty
  rw [firstBlock]
  split <;> rfl

theorem firstBlock_comment (ending : Text) (nonempty : line ≠ []) :
    strComment.isPrefixOf (untilNul (firstBlock line ending)) = strComment.isPrefixOf line := by
  rw [Bool.eq_iff_iff, comment_iff, comment_iff, untilNul_head (by decide), firstBlock_head nonempty]

theorem firstBlock_ne_newline (oneLine : ∀ c ∈ line, c ≠ '\n') (nonempty : line ≠ []) :
    untilNul (firstBlock line ending) ≠ "\n".toList := by
  intro same
  have head : (untilNul (firstBlock line ending)).head? = some '\n' := by rw [same]; rfl
  rw [untilNul_head (by decide), firstBlock_head nonempty] at head
  exact oneLine '\n' (List.mem_of_mem_head? head) rfl

theorem firstBlock_prefix {keyword : Text} (short : keyword.length ≤ 99)
    (plain : ∀ c ∈ keyword, c ≠ '\n' ∧ c ≠ '\x00') (ends : IsLineEnd ending) :
    keyword.isPrefixOf (untilNul (firstBlock line ending)) = keyword.isPrefixOf line := by
  rw [Bool.eq_iff_iff, List.isPrefixOf_iff_prefix, List.isPrefixOf_iff_prefix]
  constructor
  · intro starts
    have before := starts.trans (List.takeWhile_prefix _)
    rw [firstBlock] at before
    split at before
    · obtain rfl | rfl := ends
      · obtain same | within := List.prefix_concat_iff.mp before
        · exact absurd rfl (plain '\n' (same ▸ List.mem_append_right _ (List.mem_singleton_self _))).1
        · exact within
      · rwa [List.append_nil] at before
    · exact before.trans (List.take_prefix _ _)
  · rintro ⟨more, rfl⟩
    have front : ∃ after, firstBlock (keyword ++ more) ending = keyword ++ after := by
      rw [firstBlock]
      split
      · exact ⟨more ++ ending, List.append_assoc ..⟩
      · exact ⟨more.take (99 - keyword.length), by rw [List.take_append, List.take_of_length_le short]⟩
    obtain ⟨after, same⟩ := front
    rw [same, untilNul, List.takeWhile_append_of_pos fun c member => by simpa using (plain c member).2]
    exact List.prefix_append _ _

theorem firstBlock_keyword (ends : IsLineEnd ending) :
    hasKeyword (untilNul (firstBlock line ending)) = hasKeyword line := by
  rw [hasKeyword, hasKeyword, firstBlock_prefix (by decide) (forall_of_all (by decide)) ends,
    firstBlock_prefix (by decide) (forall_of_all (by decide)) ends,
    firstBlock_prefix (by decide) (forall_of_all (by decide)) ends]

end Block

/-! Comments. -/

/-- A line all of whose blocks start as comments is passed excess. -/
theorem comment_skipped {ending : Text}
    (blocks : ∀ block, 99 * block < line.length → strComment.isPrefixOf (line.drop (99 * block)) = true)
    (oneLine : ∀ c ∈ line, c ≠ '\n') (ends : EndsLine ending rest) :
    firewallParse uninit (some (line ++ (ending ++ rest))) state =
      firewallParse uninit (some rest) state := by
  induction length : line.length using Nat.strongRecOn generalizing line with
  | _ _ ih =>
      subst length
      by_cases empty : line = []
      · subst empty
        obtain rfl | ⟨rfl, rfl⟩ := ends
        · rw [firewallParse_line (by decide) oneLine (.inl rfl) (by decide)]
          rfl
        · rfl
      · have positive := List.length_pos_of_ne_nil empty
        have comment : strComment.isPrefixOf line = true := blocks 0 positive
        rw [← firstBlock_comment ending empty] at comment
        rw [firewallParse_first oneLine ends empty, parseLine_skips uninit state (.inl comment), afterTurn,
          blocksLeft]
        split
        · rfl
        next long =>
          refine ih (line.drop 99).length (by rw [List.length_drop]; omega) (fun block below => ?_)
            (fun c member => oneLine c (List.mem_of_mem_drop member)) rfl
          rw [List.length_drop] at below
          have later := blocks (block + 1) (by omega)
          rwa [show 99 * (block + 1) = 99 + 99 * block by omega, ← List.drop_drop] at later

/-- A line that is passed excess in a parse that succeeds without a rule has such blocks. -/
theorem comment_of_skipped (oneLine : ∀ c ∈ line, c ≠ '\n')
    (skipped : firewallParse uninit (some (line ++ (['\n'] ++ []))) state = some (0, state.rules)) :
    ∀ block, 99 * block < line.length → strComment.isPrefixOf (line.drop (99 * block)) = true := by
  induction length : line.length using Nat.strongRecOn generalizing line with
  | _ _ ih =>
      subst length
      by_cases empty : line = []
      · subst empty
        exact fun block below => absurd below (Nat.not_lt_zero _)
      · rw [firewallParse_first oneLine (.inl rfl) empty] at skipped
        by_cases starts : hasKeyword (untilNul (firstBlock line ['\n'])) = true
        · obtain overrun | ⟨next, rule, same, rules⟩ := parseLine_keyword uninit state starts
          · exact nomatch overrun ▸ skipped
          · rw [same] at skipped
            obtain ⟨more, grown⟩ := firewallParse_grows skipped
            have lengths := congrArg List.length grown
            rw [rules, List.length_append, List.length_cons] at lengths
            omega
        · by_cases comment : strComment.isPrefixOf (untilNul (firstBlock line ['\n'])) = true
          · rw [parseLine_skips uninit state (.inl comment), afterTurn, blocksLeft] at skipped
            rw [firstBlock_comment _ empty] at comment
            intro block below
            cases block with
            | zero => exact comment
            | succ before =>
                rw [if_neg (by omega)] at skipped
                have later := ih (line.drop 99).length (by rw [List.length_drop]; omega)
                  (fun c member => oneLine c (List.mem_of_mem_drop member)) skipped rfl before
                  (by rw [List.length_drop]; omega)
                rwa [List.drop_drop, show 99 + 99 * before = 99 * (before + 1) by omega] at later
          · have unknown := parseLine_unknown uninit state (Bool.eq_false_iff.mpr comment)
              (firstBlock_ne_newline oneLine empty) (Bool.eq_false_iff.mpr starts)
            rw [unknown] at skipped
            exact absurd (congrArg Prod.fst (Option.some.inj skipped)) (show (-1 : Int) ≠ 0 by decide)

/-! The characters of a rule. -/

/-- A character that neither starts a comment nor ends a C string. -/
def RuleChar (c : Char) : Prop := c ≠ '#' ∧ c ≠ '\x00'

instance (c : Char) : Decidable (RuleChar c) := inferInstanceAs (Decidable (c ≠ '#' ∧ c ≠ '\x00'))

theorem ruleChar_digit {c : Char} (digit : (digitValue c).isSome = true) : RuleChar c := by
  constructor <;>
  · rintro rfl
    exact absurd digit (by decide)

theorem ruleChar_space {c : Char} (space : isSpace c = true) : RuleChar c := by
  constructor <;>
  · rintro rfl
    exact absurd space (by decide)

theorem readDigits_split (base value : Nat) (text : Text) :
    ∃ front, text = front ++ (readDigits base value text).2 ∧ ∀ c ∈ front, RuleChar c := by
  induction text generalizing value with
  | nil => exact ⟨[], rfl, nofun⟩
  | cons c text ih =>
      rw [readDigits]
      split
      next digit found =>
        split
        · obtain ⟨front, same, digits⟩ := ih (value * base + digit)
          refine ⟨c :: front, congrArg (c :: ·) same, List.forall_mem_cons.mpr ⟨?_, digits⟩⟩
          exact ruleChar_digit (by rw [found]; rfl)
        · exact ⟨[], rfl, nofun⟩
      · exact ⟨[], rfl, nofun⟩

theorem strtoul_split (text : Text) :
    ∃ front, text = front ++ (strtoul text).2 ∧ ∀ c ∈ front, RuleChar c := by
  unfold strtoul
  split
  next x rest =>
    split
    next hex =>
      obtain ⟨front, same, digits⟩ := readDigits_split 16 0 rest
      refine ⟨'0' :: x :: front, congrArg (fun tail => '0' :: x :: tail) same, ?_⟩
      refine List.forall_mem_cons.mpr ⟨by decide, List.forall_mem_cons.mpr ⟨?_, digits⟩⟩
      obtain rfl | rfl := hex.1 <;> decide
    · exact readDigits_split 8 0 _
  · exact ⟨['0'], rfl, List.forall_mem_singleton.mpr (by decide)⟩
  · exact readDigits_split 10 0 _

theorem inetParts_chars {more : Nat} {parts : List Nat} {text : Text} {addr : BitVec 32}
    (read : inetParts more parts text = some addr) (plain : ∀ c ∈ text, isSpace c = false) :
    ∀ c ∈ text, RuleChar c := by
  induction more generalizing parts text with
  | zero => exact nomatch read
  | succ more ih =>
      rw [inetParts] at read
      split at read
      · obtain ⟨front, same, digits⟩ := strtoul_split text
        split at read
        next value rest number =>
          rw [number] at same
          split at read
          · intro c member
            rw [same] at member
            obtain early | late := List.mem_append.mp member
            · exact digits c early
            · obtain rfl | later := List.mem_cons.mp late
              · decide
              · refine ih read (fun d inside => plain d ?_) c later
                rw [same]
                exact List.mem_append_right _ (List.mem_cons_of_mem _ inside)
          · exact nomatch read
        next value rest _ number =>
          rw [number] at same
          split at read
          next ended =>
            have nothing : rest = [] := by
              refine ended.1.resolve_right fun space => ?_
              cases rest with
              | nil => exact nomatch space
              | cons d rest =>
                  have blank : isSpace d = true := by simpa using space
                  have other := plain d (by rw [same]; exact List.mem_append_right _ List.mem_cons_self)
                  exact absurd blank (by rw [other]; decide)
            rw [nothing, List.append_nil] at same
            exact same ▸ digits
          · exact nomatch read
      · exact nomatch read

theorem isPort_chars {port : Text} (valid : isPort port = true) : ∀ c ∈ port, RuleChar c := by
  rw [isPort, Bool.or_eq_true] at valid
  obtain any | number := valid
  · rw [of_decide_eq_true any]
    exact forall_of_all (by decide)
  · intro c member
    simp only [Bool.and_eq_true, List.all_eq_true] at number
    have digit := number.1.1 c member
    rw [isDigit] at digit
    refine ruleChar_digit ?_
    cases found : digitValue c with
    | none => exact absurd digit (by rw [found]; decide)
    | some value => rfl

/-! Complete rules. -/

def connectType (allow : Bool) : FwType := if allow then .connectAllow else .connectDeny

/-- A line with a complete rule, by its parts. -/
inductive StatesRule : Text → LineRule → Prop
  | bind {tail port : Text} (words : wordsOf tail = [port]) (valid : isPort port = true) :
      StatesRule (strAllowBind ++ tail) (.bind port)
  | connect {allow : Bool} {tail port ip mask : Text} {ipAddr maskAddr : BitVec 32}
      (words : wordsOf tail = [port, ip, mask]) (valid : isPort port = true)
      (validIp : inetParts 4 [] ip = some ipAddr) (validMask : inetParts 4 [] mask = some maskAddr) :
      StatesRule (connectKeyword allow ++ tail) (.connect (connectType allow) port ip mask)

theorem argsOf_cons {keyword word : Text} {more : List Text} (args : argsOf keyword line = word :: more) :
    ∃ tail, line = keyword ++ tail ∧ wordsOf tail = word :: more := by
  rw [argsOf] at args
  split at args
  next starts =>
    obtain ⟨tail, rfl⟩ := List.isPrefixOf_iff_prefix.mp starts.1
    rw [List.drop_left] at args
    exact ⟨tail, rfl, args⟩
  · exact nomatch args

theorem bindOf_states {rule : LineRule} (found : bindOf line = some rule) : StatesRule line rule := by
  rw [bindOf] at found
  split at found
  next port args =>
    split at found
    next valid =>
      obtain ⟨tail, rfl, words⟩ := argsOf_cons args
      obtain rfl := Option.some.inj found
      exact .bind words valid
    · exact nomatch found
  · exact nomatch found

theorem connectOf_states (allow : Bool) {rule : LineRule}
    (found : connectOf (connectType allow) (connectKeyword allow) line = some rule) :
    StatesRule line rule := by
  rw [connectOf] at found
  split at found
  next port ip mask args =>
    split at found
    next valid =>
      simp only [Bool.and_eq_true, isAddr, Option.isSome_iff_exists] at valid
      obtain ⟨⟨port, ipAddr, validIp⟩, maskAddr, validMask⟩ := valid
      obtain ⟨tail, rfl, words⟩ := argsOf_cons args
      obtain rfl := Option.some.inj found
      exact .connect words port validIp validMask
    · exact nomatch found
  · exact nomatch found

theorem ruleOf_states {rule : LineRule} (found : ruleOf line = some rule) : StatesRule line rule := by
  rw [ruleOf, Option.or_eq_some_iff, Option.or_eq_some_iff] at found
  obtain (bind | ⟨_, allow⟩) | ⟨_, deny⟩ := found
  · exact bindOf_states bind
  · exact connectOf_states true allow
  · exact connectOf_states false deny

theorem words_chars {keyword tail : Text} (named : ∀ c ∈ keyword, RuleChar c)
    (words : ∀ word ∈ wordsOf tail, ∀ c ∈ word, RuleChar c) : ∀ c ∈ keyword ++ tail, RuleChar c := by
  refine List.forall_mem_append.mpr ⟨named, fun c member => ?_⟩
  obtain space | ⟨word, present, inside⟩ := mem_wordsOf member
  · exact ruleChar_space space
  · exact words word present c inside

theorem connectKeyword_chars (allow : Bool) : ∀ c ∈ connectKeyword allow, RuleChar c :=
  forall_of_all (by cases allow <;> decide)

theorem StatesRule.chars {rule : LineRule} (states : StatesRule line rule) : ∀ c ∈ line, RuleChar c := by
  cases states with
  | bind words valid =>
      refine words_chars (forall_of_all (by decide)) ?_
      rw [words, List.forall_mem_singleton]
      exact isPort_chars valid
  | @connect allow tail port ip mask ipAddr maskAddr words valid validIp validMask =>
      have plain : ∀ word ∈ wordsOf tail, ∀ c ∈ word, isSpace c = false :=
        fun word member => word_plain member
      refine words_chars (connectKeyword_chars allow) ?_
      rw [words, List.forall_mem_cons, List.forall_mem_cons, List.forall_mem_singleton] at plain ⊢
      exact ⟨isPort_chars valid, inetParts_chars validIp plain.2.1, inetParts_chars validMask plain.2.2⟩

theorem StatesRule.keyword {rule : LineRule} (states : StatesRule line rule) : hasKeyword line = true := by
  cases states with
  | bind => rw [hasKeyword, isPrefixOf_self, Bool.true_or, Bool.true_or]
  | @connect allow tail port ip mask =>
      cases allow with
      | true =>
          rw [hasKeyword, show connectKeyword true = strAllowConnect from rfl,
            isPrefixOf_self strAllowConnect, Bool.or_true, Bool.true_or]
      | false =>
          rw [hasKeyword, show connectKeyword false = strDenyConnect from rfl, isPrefixOf_self strDenyConnect,
            Bool.or_true]

theorem parsePort_stated {port : Text} (valid : isPort port = true) : PortSays port (parsePort port) := by
  rw [PortSays, parsePort]
  by_cases any : port = "*".toList
  · rw [if_pos any]
    exact ⟨⟨fun _ => any, fun _ => rfl⟩, fun other => absurd any other⟩
  · simp only [isPort, any, decide_false, Bool.false_or, Bool.and_eq_true, decide_eq_true_eq] at valid
    obtain ⟨⟨_, low⟩, high⟩ := valid
    obtain ⟨value, isValue⟩ := Int.eq_ofNat_of_zero_le (show 0 ≤ atoi port by omega)
    have small : value < 2 ^ 16 := by omega
    rw [if_neg any, isValue, BitVec.ofInt_natCast]
    have exact : (BitVec.ofNat 16 value).toNat = value := by
      rw [BitVec.toNat_ofNat, Nat.mod_eq_of_lt small]
    refine ⟨⟨fun zero => ?_, fun star => absurd star any⟩, fun _ => by rw [exact]⟩
    have none := congrArg BitVec.toNat zero
    rw [exact, fwPortAny, BitVec.toNat_ofNat] at none
    omega

theorem wordsOf_ending {tail ending : Text} (ends : IsLineEnd ending) :
    wordsOf (tail ++ ending) = wordsOf tail := by
  obtain rfl | rfl := ends
  · exact wordsOf_append_space (by decide) tail
  · rw [List.append_nil]

theorem parseBind_words (uninit : FwRule) (state : FwParse) {tail port : Text} (words : wordsOf tail = [port]) :
    (port.length < 8 → ∃ next, parseBind uninit (strAllowBind ++ tail) state = some (.next next) ∧
        next.rules = { uninit with type := .bindAllow, port := parsePort port } :: state.rules) ∧
      (8 ≤ port.length → parseBind uninit (strAllowBind ++ tail) state = none) := by
  obtain ⟨fits, overruns⟩ := scanString_words 8 state.port words
  rw [parseBind, List.drop_left]
  constructor
  · intro short
    obtain ⟨rest, _, read⟩ := fits short
    rw [read]
    exact ⟨_, rfl, rfl⟩
  · intro long
    rw [overruns long]

theorem parseConnect_words (type : FwType) (keyword : Text) (state : FwParse) {tail port ip mask : Text}
    {ipAddr maskAddr : BitVec 32}
    (words : wordsOf tail = [port, ip, mask]) (validIp : inetParts 4 [] ip = some ipAddr)
    (validMask : inetParts 4 [] mask = some maskAddr) :
    (port.length < 8 ∧ ip.length < 20 ∧ mask.length < 20 →
        ∃ next, parseConnect type keyword (keyword ++ tail) state = some (.next next) ∧
          next.rules = ⟨type, parsePort port, ipAddr, maskAddr⟩ :: state.rules) ∧
      (¬ (port.length < 8 ∧ ip.length < 20 ∧ mask.length < 20) →
        parseConnect type keyword (keyword ++ tail) state = none) := by
  rw [parseConnect, List.drop_left]
  obtain ⟨fits, overruns⟩ := scanString_words 8 state.port words
  by_cases portShort : port.length < 8
  · obtain ⟨afterPort, ipWords, readPort⟩ := fits portShort
    obtain ⟨fits, overruns⟩ := scanString_words 20 state.ip ipWords
    rw [readPort]
    dsimp only
    by_cases ipShort : ip.length < 20
    · obtain ⟨afterIp, maskWords, readIp⟩ := fits ipShort
      obtain ⟨fits, overruns⟩ := scanString_words 20 state.mask maskWords
      rw [readIp]
      dsimp only
      by_cases maskShort : mask.length < 20
      · obtain ⟨afterMask, _, readMask⟩ := fits maskShort
        refine ⟨fun _ => ?_, fun excess => absurd ⟨portShort, ipShort, maskShort⟩ excess⟩
        rw [readMask]
        simp only [inetAton, validIp, validMask]
        exact ⟨_, rfl, rfl⟩
      · rw [overruns (Nat.le_of_not_lt maskShort)]
        exact ⟨fun all => absurd all.2.2 maskShort, fun _ => rfl⟩
    · rw [overruns (Nat.le_of_not_lt ipShort)]
      exact ⟨fun all => absurd all.2.1 ipShort, fun _ => rfl⟩
  · rw [overruns (Nat.le_of_not_lt portShort)]
    exact ⟨fun all => absurd all.1 portShort, fun _ => rfl⟩

/-- A complete rule is entered, if its words have room. -/
theorem StatesRule.parsed {rule : LineRule} {ending : Text} (states : StatesRule line rule)
    (uninit : FwRule) (state : FwParse)
    (ends : IsLineEnd ending) :
    (rule.Fits → ∃ next r, parseLine uninit (line ++ ending) state = some (.next next) ∧
        next.rules = r :: state.rules ∧ rule.Says r) ∧
      (¬ rule.Fits → parseLine uninit (line ++ ending) state = none) := by
  cases states with
  | @bind tail port words valid =>
      have read := parseBind_words uninit state ((wordsOf_ending ends).trans words)
      rw [List.append_assoc, parseLine_allowBind]
      refine ⟨fun fits => ?_, fun excess => read.2 (Nat.le_of_not_lt excess)⟩
      obtain ⟨next, same, rules⟩ := read.1 fits
      exact ⟨next, _, same, rules, rfl, parsePort_stated valid⟩
  | @connect allow tail port ip mask ipAddr maskAddr words valid validIp validMask =>
      have read := parseConnect_words (connectType allow) (connectKeyword allow) state
        ((wordsOf_ending ends).trans words) validIp validMask
      have dispatch : parseLine uninit (connectKeyword allow ++ (tail ++ ending)) state =
          parseConnect (connectType allow) (connectKeyword allow) (connectKeyword allow ++ (tail ++ ending))
            state := by
        cases allow with
        | true => exact parseLine_allowConnect uninit _ state
        | false => exact parseLine_denyConnect uninit _ state
      rw [List.append_assoc, dispatch]
      refine ⟨fun fits => ?_, read.2⟩
      obtain ⟨next, same, rules⟩ := read.1 fits
      exact ⟨next, _, same, rules, rfl, parsePort_stated valid, validIp, validMask⟩

/-! What a line comes to. -/

theorem StatesRule.untilNul {rule : LineRule} {ending : Text} (states : StatesRule line rule)
    (ends : IsLineEnd ending) : untilNul (line ++ ending) = line ++ ending := by
  have plain : ∀ c ∈ line, (c ≠ '\x00' : Bool) = true := fun c member => by
    simpa using (states.chars c member).2
  rw [RdmaPaging.untilNul, List.takeWhile_append_of_pos plain]
  obtain rfl | rfl := ends <;> rfl

theorem ruleOf_comment (comment : strComment.isPrefixOf line = true) : ruleOf line = none := by
  rw [comment_iff] at comment
  cases found : ruleOf line with
  | none => rfl
  | some rule => exact absurd rfl ((ruleOf_states found).chars '#' (List.mem_of_mem_head? comment)).1

theorem EndsLine.ending {ending : Text} (ends : EndsLine ending rest) : IsLineEnd ending :=
  ends.imp_right And.left

/-- Nothing is left of a line but its end. -/
theorem firewallParse_ending {ending : Text} (ends : EndsLine ending rest) :
    firewallParse uninit (some (ending ++ rest)) state = firewallParse uninit (some rest) state :=
  comment_skipped (fun _ (below : _ < ([] : Text).length) => absurd below (Nat.not_lt_zero _)) nofun ends

/-- A rule of up to 99 characters is read in its first turn. -/
theorem firewallParse_rule (uninit : FwRule) (state : FwParse) {rule : LineRule} {ending : Text} (states : StatesRule line rule)
    (short : line.length ≤ 99) (oneLine : ∀ c ∈ line, c ≠ '\n') (ends : IsLineEnd ending) :
    (rule.Fits → ∃ next r, next.rules = r :: state.rules ∧ rule.Says r ∧ ∀ rest, EndsLine ending rest →
        firewallParse uninit (some (line ++ (ending ++ rest))) state =
          firewallParse uninit (some rest) next) ∧
      (¬ rule.Fits → ∀ rest, EndsLine ending rest →
        firewallParse uninit (some (line ++ (ending ++ rest))) state = none) := by
  have nonempty : line ≠ [] := by
    rintro rfl
    exact absurd states.keyword (by decide)
  by_cases whole : line.length = 99
  · have block : ∀ rest, firewallParse uninit (some (line ++ (ending ++ rest))) state =
        afterTurn uninit (ending ++ rest) (parseLine uninit (line ++ []) state) := by
      intro rest
      rw [firewallParse_block (Nat.le_of_eq whole.symm) oneLine, List.take_of_length_le short,
        List.drop_eq_nil_of_le short, List.nil_append, ← states.untilNul (.inr rfl), List.append_nil]
    obtain ⟨enters, overruns⟩ := states.parsed uninit state (.inr rfl)
    constructor
    · intro fits
      obtain ⟨next, r, parsed, rules, stated⟩ := enters fits
      refine ⟨next, r, rules, stated, fun rest ends => ?_⟩
      rw [block, parsed, afterTurn, firewallParse_ending ends]
    · intro excess rest _
      rw [block, overruns excess, afterTurn]
  · have turn : ∀ rest, EndsLine ending rest →
        firewallParse uninit (some (line ++ (ending ++ rest))) state =
          afterTurn uninit rest (parseLine uninit (line ++ ending) state) := by
      intro rest ends
      rw [firewallParse_line (by omega) oneLine ends (by simp [nonempty]), states.untilNul ends.ending]
    obtain ⟨enters, overruns⟩ := states.parsed uninit state ends
    constructor
    · intro fits
      obtain ⟨next, r, parsed, rules, stated⟩ := enters fits
      refine ⟨next, r, rules, stated, fun rest ends => ?_⟩
      rw [turn rest ends, parsed, afterTurn]
    · intro excess rest ends
      rw [turn rest ends, overruns excess, afterTurn]

theorem fine_good (uninit : FwRule) (state : FwParse) {ending : Text} (fine : LineFine line) (good : wellFormed line = true)
    (oneLine : ∀ c ∈ line, c ≠ '\n') (ends : IsLineEnd ending) :
    ∃ next rules, next.rules = rules ++ state.rules ∧ List.Forall₂ LineRule.Says (ruleOf line).toList rules ∧
      ∀ rest, EndsLine ending rest →
        firewallParse uninit (some (line ++ (ending ++ rest))) state =
          firewallParse uninit (some rest) next := by
  rw [LineFine] at fine
  split at fine
  next comment =>
    rw [ruleOf_comment comment]
    exact ⟨state, [], rfl, .nil, fun rest ends => comment_skipped fine oneLine ends⟩
  next other =>
    split at fine
    next rule found =>
      obtain ⟨next, r, rules, stated, parsed⟩ :=
        (firewallParse_rule uninit state (ruleOf_states found) fine.1 oneLine ends).1 fine.2
      rw [found]
      exact ⟨next, [r], rules, .cons stated .nil, parsed⟩
    next none =>
      obtain rfl : line = [] := by
        simpa only [wellFormed, other, none, Option.isSome_none, Bool.or_false, decide_eq_true_eq] using good
      exact ⟨state, [], rfl, .nil, fun rest ends => firewallParse_ending ends⟩

theorem fine_bad {ending : Text} (fine : LineFine line) (bad : wellFormed line = false)
    (oneLine : ∀ c ∈ line, c ≠ '\n') (ends : EndsLine ending rest) :
    firewallParse uninit (some (line ++ (ending ++ rest))) state = some (-1, state.rules) := by
  simp only [wellFormed, Bool.or_eq_false_iff, decide_eq_false_iff_not, Option.isSome_eq_false_iff,
    Option.isNone_iff_eq_none] at bad
  obtain ⟨⟨nonempty, comment⟩, none⟩ := bad
  rw [LineFine, comment, if_neg Bool.false_ne_true, none] at fine
  rw [firewallParse_first oneLine ends nonempty, parseLine_unknown uninit state
    ((firstBlock_comment _ nonempty).trans comment) (firstBlock_ne_newline oneLine nonempty)
    ((firstBlock_keyword ends.ending).trans fine), afterTurn]

theorem fine_local (fine : LineFine line) (oneLine : ∀ c ∈ line, c ≠ '\n') : LineLocal line := by
  intro uninit state
  by_cases good : wellFormed line = true
  · rw [if_pos good]
    obtain ⟨next, rules, grown, stated, parsed⟩ :=
      fine_good uninit state fine good oneLine (.inl rfl)
    exact ⟨next, rules, grown, stated, fun rest => parsed rest (.inl rfl)⟩
  · rw [if_neg good]
    exact fun rest => fine_bad fine (Bool.eq_false_iff.mpr good) oneLine (.inl rfl)

/-- A line whose first turn enters a rule leaves one more rule. -/
theorem keyword_longer {ret : Int} {rules : List FwRule} (starts : hasKeyword line = true)
    (oneLine : ∀ c ∈ line, c ≠ '\n')
    (parsed : firewallParse uninit (some (line ++ (['\n'] ++ []))) state = some (ret, rules)) :
    ∃ next rule, next.rules = rule :: state.rules ∧
      firewallParse uninit (some (blocksLeft line ['\n'] [])) next = some (ret, rules) := by
  have nonempty : line ≠ [] := by
    rintro rfl
    exact absurd starts (by decide)
  rw [firewallParse_first oneLine (.inl rfl) nonempty] at parsed
  rw [← firstBlock_keyword (show IsLineEnd ['\n'] from .inl rfl)] at starts
  obtain overrun | ⟨next, rule, same, rules⟩ := parseLine_keyword uninit state starts
  · exact nomatch overrun ▸ parsed
  · rw [same] at parsed
    exact ⟨next, rule, rules, parsed⟩

/-- A rule that is read as one rule and no more has a single block. -/
theorem rule_short {rule : LineRule} {r : FwRule} (states : StatesRule line rule)
    (oneLine : ∀ c ∈ line, c ≠ '\n')
    (parsed : firewallParse uninit (some (line ++ (['\n'] ++ []))) state = some (0, r :: state.rules)) :
    line.length ≤ 99 := by
  by_contra long
  obtain ⟨next, other, rules, rest⟩ := keyword_longer states.keyword oneLine parsed
  obtain ⟨more, grown⟩ := firewallParse_grows rest
  obtain rfl : more = [] := by
    have lengths := congrArg List.length grown
    rw [rules, List.length_append, List.length_cons, List.length_cons] at lengths
    exact List.length_eq_zero_iff.mp (by omega)
  rw [grown, List.nil_append, blocksLeft, if_neg (by omega)] at rest
  have blocks := comment_of_skipped (fun c member => oneLine c (List.mem_of_mem_drop member)) rest 0
    (by rw [List.length_drop]; omega)
  rw [Nat.mul_zero, List.drop_zero, comment_iff] at blocks
  exact (states.chars '#' (List.mem_of_mem_drop (List.mem_of_mem_head? blocks))).1 rfl

theorem local_fine (isLocal : LineLocal line) (oneLine : ∀ c ∈ line, c ≠ '\n') : LineFine line := by
  have parsed := isLocal blankRule parseStart
  rw [LineFine]
  by_cases comment : strComment.isPrefixOf line = true
  · rw [if_pos comment]
    rw [if_pos (by rw [wellFormed, comment, Bool.or_true, Bool.true_or]), ruleOf_comment comment] at parsed
    obtain ⟨next, rules, grown, stated, goesOn⟩ := parsed
    obtain rfl := List.forall₂_nil_left_iff.mp stated
    refine comment_of_skipped oneLine ((goesOn []).trans ?_)
    rw [firewallParse_nil, grown, List.nil_append]
  · rw [if_neg comment]
    cases found : ruleOf line with
    | some rule =>
        rw [if_pos (by rw [wellFormed, found, Option.isSome_some, Bool.or_true]), found] at parsed
        obtain ⟨next, rules, grown, stated, goesOn⟩ := parsed
        obtain ⟨r, _, _, nothing, rfl⟩ := List.forall₂_cons_left_iff.mp stated
        obtain rfl := List.forall₂_nil_left_iff.mp nothing
        have one := (goesOn []).trans firewallParse_nil
        rw [grown] at one
        have short := rule_short (ruleOf_states found) oneLine one
        refine ⟨short, ?_⟩
        by_contra excess
        have overrun := (firewallParse_rule blankRule parseStart (ruleOf_states found)
          short oneLine (.inl rfl)).2 excess [] (.inl rfl)
        exact nomatch overrun.symm.trans one
    | none =>
        by_cases empty : line = []
        · rw [empty]
          rfl
        · rw [if_neg (by simp [wellFormed, comment, found, empty])] at parsed
          by_contra starts
          obtain ⟨next, rule, rules, rest⟩ :=
            keyword_longer (by simpa using starts) oneLine (parsed [])
          obtain ⟨more, grown⟩ := firewallParse_grows rest
          have lengths := congrArg List.length grown
          rw [rules, List.length_append, List.length_cons] at lengths
          omega

/-! Files. -/

theorem statedRules_good (good : wellFormed line = true) (lines : List Text) :
    statedRules (line :: lines) = statedRules lines ++ (ruleOf line).toList := by
  rw [statedRules, statedRules, List.takeWhile_cons_of_pos good, List.filterMap_cons]
  cases ruleOf line with
  | none => exact (List.append_nil _).symm
  | some rule => exact List.reverse_cons

theorem statedRules_bad (bad : wellFormed line = false) (lines : List Text) :
    statedRules (line :: lines) = [] := by
  rw [statedRules, List.takeWhile_cons_of_neg (by rw [bad]; exact Bool.false_ne_true)]
  rfl

/-- The parse of a file whose lines are fine, from any buffers and rules. -/
theorem firewallParse_lines (uninit : FwRule) (state : FwParse) (text : Text) (fine : ∀ line ∈ readUpTo (linesOf text), LineFine line) :
    ∃ ret rules, firewallParse uninit (some text) state = some (ret, rules ++ state.rules) ∧
      (ret = 0 ↔ ∀ line ∈ linesOf text, wellFormed line = true) ∧
        List.Forall₂ LineRule.Says (statedRules (linesOf text)) rules := by
  induction length : text.length using Nat.strongRecOn generalizing text state with
  | _ _ ih =>
      subst length
      obtain rfl | ⟨line, ending, rest, rfl, oneLine, ends, nonempty, lines, shorter⟩ := line_cases text
      · exact ⟨0, [], rfl, ⟨fun _ => nofun, fun _ => rfl⟩, .nil⟩
      · rw [lines, readUpTo] at fine
        rw [lines]
        by_cases good : wellFormed line = true
        · rw [if_pos good, List.forall_mem_cons] at fine
          obtain ⟨next, entered, grown, stated, parsed⟩ :=
            fine_good uninit state fine.1 good oneLine ends.ending
          obtain ⟨ret, rules, goesOn, zero, all⟩ := ih rest.length shorter next rest fine.2 rfl
          refine ⟨ret, rules ++ entered, ?_, ?_, ?_⟩
          · rw [parsed rest ends, goesOn, grown, List.append_assoc]
          · rw [List.forall_mem_cons]
            exact ⟨fun same => ⟨good, zero.mp same⟩, fun both => zero.mpr both.2⟩
          · rw [statedRules_good good]
            exact List.rel_append all stated
        · have bad := Bool.eq_false_iff.mpr good
          rw [if_neg good, List.forall_mem_singleton] at fine
          refine ⟨-1, [], fine_bad fine bad oneLine ends, ?_, ?_⟩
          · rw [List.forall_mem_cons]
            exact ⟨nofun, fun both => absurd both.1 good⟩
          · rw [statedRules_bad bad]
            exact .nil

theorem mem_readUpTo {lines : List Text} (member : line ∈ readUpTo lines) : line ∈ lines := by
  induction lines with
  | nil => exact member
  | cons first rest ih =>
      rw [readUpTo] at member
      split at member
      · obtain rfl | later := List.mem_cons.mp member
        · exact List.mem_cons_self
        · exact List.mem_cons_of_mem _ (ih later)
      · exact List.mem_singleton.mp member ▸ List.mem_cons_self

/-- A file is parsed line by line if and only if each line up to the first that is not well-formed is fine. -/
theorem parses_by_line_iff (text : Text) :
    ParsesByLine text ↔ ∀ line ∈ readUpTo (linesOf text), LineFine line := by
  constructor
  · exact fun parses line member =>
      local_fine (parses.lineLocal line member) (linesOf_plain (mem_readUpTo member))
  · intro fine
    refine ⟨fun uninit state fresh => ?_, fun line member =>
      fine_local (fine line member) (linesOf_plain (mem_readUpTo member))⟩
    obtain ⟨ret, rules, parsed, zero, stated⟩ :=
      firewallParse_lines uninit state text fine
    rw [fresh, List.append_nil] at parsed
    exact ⟨ret, rules, parsed, zero, stated⟩

/-- A port that is no number is entered as any port. -/
theorem named_port_opens : ¬ ∀ text, ParsesByLine text := by
  intro all
  obtain ⟨ret, rules, parsed, zero, _⟩ := (all "allow bind http\n".toList).result blankRule parseStart rfl
  have entered : firewallParse blankRule (some "allow bind http\n".toList) parseStart =
      some (0, [⟨.bindAllow, fwPortAny, 0, 0⟩]) := by decide
  obtain rfl : 0 = ret := congrArg Prod.fst (Option.some.inj (entered.symm.trans parsed))
  exact absurd (zero.mp rfl) (by decide)

end Turn

end RdmaPaging
