import Mathlib.Data.BitVec
import Mathlib.Data.List.Basic

/-!
The rule parser and the rule checks of the user-space firewall, `firewall.c`. What the
functions print is left out. A C string is the list of its characters without the final NUL.
-/

namespace RdmaPaging

abbrev Text := List Char

inductive FwType
  | bindAllow
  | connectAllow
  | connectDeny
  deriving DecidableEq

/-- A rule. The address and the mask are in network byte order. -/
structure FwRule where
  type : FwType
  port : BitVec 16
  ip : BitVec 32
  mask : BitVec 32
  deriving DecidableEq

def fwPortAny : BitVec 16 := 0#16

def strComment : Text := "#".toList
def strAllowBind : Text := "allow bind".toList
def strAllowConnect : Text := "allow connect".toList
def strDenyConnect : Text := "deny connect".toList

/-! The functions of the C library that the parser calls. -/

def isSpace (c : Char) : Bool :=
  c = ' ' || c = '\t' || c = '\n' || c = '\x0b' || c = '\x0c' || c = '\r'

def digitValue (c : Char) : Option Nat :=
  if '0' ≤ c ∧ c ≤ '9' then some (c.toNat - '0'.toNat)
  else if 'a' ≤ c ∧ c ≤ 'f' then some (c.toNat - 'a'.toNat + 10)
  else if 'A' ≤ c ∧ c ≤ 'F' then some (c.toNat - 'A'.toNat + 10)
  else none

def isDigit (base : Nat) (c : Char) : Bool := (digitValue c).any (· < base)

/-- The number that the leading digits of a text make, after the digits of `value`. -/
def readDigits (base value : Nat) : Text → Nat × Text
  | [] => (value, [])
  | c :: rest =>
      match digitValue c with
      | some digit => if digit < base then readDigits base (value * base + digit) rest else (value, c :: rest)
      | none => (value, c :: rest)

/-- `atoi`. The parser's strings are too short for the result to overflow. -/
def atoi (text : Text) : Int :=
  match text.dropWhile isSpace with
  | '-' :: rest => -((readDigits 10 0 rest).1 : Int)
  | '+' :: rest => (readDigits 10 0 rest).1
  | rest => (readDigits 10 0 rest).1

/-- `strtoul` with base 0, for a text that starts with a digit. -/
def strtoul (text : Text) : Nat × Text :=
  match text with
  | '0' :: x :: rest =>
      if (x = 'x' ∨ x = 'X') ∧ rest.head?.any (isDigit 16) then readDigits 16 0 rest
      else readDigits 8 0 text
  | '0' :: [] => (0, [])
  | _ => readDigits 10 0 text

/-- The four bytes of an address, the first one lowest in memory. -/
def inAddr (bytes : Nat → Nat) : BitVec 32 :=
  BitVec.ofNat 32 (bytes 0 + bytes 1 * 2 ^ 8 + bytes 2 * 2 ^ 16 + bytes 3 * 2 ^ 24)

/-- The address of the leading bytes `parts` and a last number that fills the bytes that
are left. -/
def inetAddr (parts : List Nat) (last : Nat) : BitVec 32 :=
  inAddr fun position =>
    if position < parts.length then parts.getD position 0
    else last / 2 ^ (8 * (3 - position)) % 2 ^ 8

/-- The parts of a dotted address, after the leading bytes `parts`. -/
def inetParts : Nat → List Nat → Text → Option (BitVec 32)
  | 0, _, _ => none
  | more + 1, parts, text =>
      if text.head?.any (isDigit 10) then
        match strtoul text with
        | (value, '.' :: rest) => if value ≤ 255 then inetParts more (parts ++ [value]) rest else none
        | (value, rest) =>
            if (rest = [] ∨ rest.head?.any isSpace) ∧ value < 2 ^ (8 * (4 - parts.length)) then
              some (inetAddr parts value)
            else none
      else none

/-- `inet_aton`: decimal, octal or hexadecimal numbers, one to four of them. The result is 1
and the address, or 0 with the address left as it was. -/
def inetAton (text : Text) (inp : BitVec 32) : Int × BitVec 32 :=
  match inetParts 4 [] text with
  | some addr => (1, addr)
  | none => (0, inp)

/-- An open file: what is still to be read, and whether its end was met. -/
structure FwFile where
  rest : Text
  eof : Bool

/-- Up to `count` characters and no further than a newline. -/
@[grind =] def readLine : Nat → Text → Text × FwFile
  | 0, rest => ([], ⟨rest, false⟩)
  | _ + 1, [] => ([], ⟨[], true⟩)
  | count + 1, c :: rest =>
      if c = '\n' then ([c], ⟨rest, false⟩)
      else
        match readLine count rest with
        | (line, file) => (c :: line, file)

/-- `fgets` with a buffer of `size` bytes. -/
@[grind =] def fgets (size : Nat) (file : FwFile) : Option Text × FwFile :=
  match readLine (size - 1) file.rest with
  | ([], next) => (none, next)
  | (line, next) => (some (line.takeWhile (· ≠ '\x00')), next)

/-- One `%s` of `sscanf` into a buffer of `size` bytes that holds `old`. The input is `none`
once a conversion has failed. No result means that the string does not fit. -/
def scanString (size : Nat) (old : Text) (input : Option Text) : Option (Text × Option Text) :=
  match input with
  | none => some (old, none)
  | some text =>
      match text.dropWhile isSpace with
      | [] => some (old, none)
      | found =>
          if (found.takeWhile (!isSpace ·)).length < size then
            some (found.takeWhile (!isSpace ·), some (found.dropWhile (!isSpace ·)))
          else none

/-! The parser. -/

/-- The local buffers of `firewall_parse`, which keep their contents from line to line, and
the rules, the latest first. -/
structure FwParse where
  port : Text
  ip : Text
  mask : Text
  inp : BitVec 32
  rules : List FwRule

/-- What one line comes to: the loop goes on, or the function returns. -/
inductive LineResult
  | next (state : FwParse)
  | returns (ret : Int) (state : FwParse)

def parsePort (port : Text) : BitVec 16 :=
  if port = "*".toList then fwPortAny else BitVec.ofInt 16 (atoi port)

def parseBind (uninit : FwRule) (str : Text) (state : FwParse) : Option LineResult :=
  match scanString 8 state.port (some (str.drop strAllowBind.length)) with
  | none => none
  | some (port, _) =>
      some (.next { state with
        port := port
        rules := { uninit with type := .bindAllow, port := parsePort port } :: state.rules })

/-- The branches for `allow connect` and `deny connect`. -/
def parseConnect (type : FwType) (keyword str : Text) (state : FwParse) : Option LineResult :=
  match scanString 8 state.port (some (str.drop keyword.length)) with
  | none => none
  | some (port, input) =>
      match scanString 20 state.ip input with
      | none => none
      | some (ip, input) =>
          match scanString 20 state.mask input with
          | none => none
          | some (mask, _) =>
              let read := { state with port := port, ip := ip, mask := mask }
              match inetAton ip state.inp with
              | (ret, ipAddr) =>
                  if ret < 0 then some (.returns (-1) read)
                  else
                    match inetAton mask ipAddr with
                    | (ret, maskAddr) =>
                        if ret < 0 then some (.returns (-1) { read with inp := ipAddr })
                        else some (.next { read with
                          inp := maskAddr
                          rules := ⟨type, parsePort port, ipAddr, maskAddr⟩ :: state.rules })

/-- The body of the loop for a line. `uninit` is what a new rule's memory holds. -/
@[grind =] def parseLine (uninit : FwRule) (str : Text) (state : FwParse) : Option LineResult :=
  if strComment.isPrefixOf str then some (.next state)
  else if str = "\n".toList then some (.next state)
  else if strAllowBind.isPrefixOf str then parseBind uninit str state
  else if strAllowConnect.isPrefixOf str then parseConnect .connectAllow strAllowConnect str state
  else if strDenyConnect.isPrefixOf str then parseConnect .connectDeny strDenyConnect str state
  else some (.returns (-1) state)

/-- The loop. Every turn but the last reads a character, so `fuel` above the length of the
file is enough. No result means that a string did not fit into its buffer. -/
@[grind =] def parseLoop (uninit : FwRule) : Nat → FwFile → FwParse → Option (Int × List FwRule)
  | 0, _, _ => none
  | fuel + 1, file, state =>
      if file.eof then some (0, state.rules)
      else
        match fgets 100 file with
        | (none, _) => some (0, state.rules)
        | (some str, file) =>
            match parseLine uninit str state with
            | none => none
            | some (.returns ret state) => some (ret, state.rules)
            | some (.next state) => parseLoop uninit fuel file state

/-- `firewall_parse` of a file that may not exist, from the rules and buffers of `state`. -/
def firewallParse (uninit : FwRule) (fwrules : Option Text) (state : FwParse) :
    Option (Int × List FwRule) :=
  match fwrules with
  | none => some (-1, state.rules)
  | some text => parseLoop uninit (text.length + 2) ⟨text, false⟩ state

/-! The checks. -/

def firewallCheckBind (port : BitVec 16) : List FwRule → Bool
  | [] => false
  | p :: rest =>
      if p.type = .bindAllow ∧ (p.port = fwPortAny ∨ p.port = port) then true
      else firewallCheckBind port rest

@[grind =] def firewallCheckConnect (port : BitVec 16) (ip : BitVec 32) : List FwRule → Bool
  | [] => false
  | p :: rest =>
      if p.type = .connectAllow ∧ ip &&& p.ip = ip &&& p.mask ∧ (p.port = fwPortAny ∨ p.port = port) then
        true
      else if p.type = .connectDeny ∧ ip &&& p.ip = ip &&& p.mask ∧
          (p.port = fwPortAny ∨ p.port = port) then
        false
      else firewallCheckConnect port ip rest

end RdmaPaging
