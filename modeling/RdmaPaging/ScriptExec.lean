import RdmaPaging.ByteMemory
import Mathlib.Data.List.TakeWhile
import Mathlib.Tactic.Tauto

/-!
`execve` of the sandboxed application, `exec_execev` of the sandbox's `exec.c`. An ELF file and
a script each start the sandbox again, with a new argument list.
-/

namespace RdmaPaging

open ByteMemory

abbrev ByteString := List (BitVec 8)

def execPgsize : Nat := 4096
def execEnoexec : Int := 8

def asciiBytes (text : String) : ByteString := text.toList.map fun char => BitVec.ofNat 8 char.toNat

def sandboxPath : ByteString := asciiBytes "./sandbox"
def ldPath : ByteString := asciiBytes "/lib64/ld-linux-x86-64.so.2"

def isBlank (byte : BitVec 8) : Bool := byte = 0x20 || byte = 0x09
def newline : BitVec 8 := 0x0a
def endsLine (byte : BitVec 8) : Bool := byte = newline || byte = 0
def endsWord (byte : BitVec 8) : Bool := isBlank byte || endsLine byte

/-- `page` after the read: the bytes, a NUL, and what was on the stack before. -/
def pageOf (bytes : ByteString) (stale : Memory) : Memory := fun index =>
  bytes.getD index (if index = bytes.length then 0 else stale index)

/-- The first index from `index` on at which the loop stops, or the index after the last. -/
@[grind =] def scan (page : Memory) (stop : BitVec 8 → Bool) : Nat → Nat → Nat
  | 0, index => index
  | fuel + 1, index => if stop (page index) then index else scan page stop fuel (index + 1)

/-- The string at an index of the page, unless its NUL lies beyond. -/
def cString (page : Memory) (start : Nat) : Option ByteString :=
  let stop := scan page (· = 0) (execPgsize - start) start
  if stop < execPgsize then some ((List.range' start (stop - start)).map page) else none

inductive FileKind
  | short | elf | script | other
  deriving DecidableEq

def fileKind (len : Nat) (page : Memory) : FileKind :=
  if len < 2 then .short
  else if page 0 = 0x7f ∧ page 1 = 0x45 ∧ page 2 = 0x4c ∧ page 3 = 0x46 then .elf
  else if page 0 = 0x23 ∨ page 1 = 0x21 then .script
  else .other

/-- `outOfBounds` is an access to `page` beyond its end. -/
inductive ExecEnd
  | returned (code : Int)
  | exited
  | execve (args : List ByteString)
  | outOfBounds

/-- The end of a call that has its argument list: the parent exits, and the child calls `execve`. -/
@[grind =] def execForked (forked : Int) (newArgv : Option (List ByteString)) : ExecEnd :=
  if forked < 0 then .returned forked
  else if 0 < forked then .exited
  else
    match newArgv with
    | some args => .execve args
    | none => .outOfBounds

/-- The branch for a script. The copied `argv` ends the list with its NULL. -/
@[grind =] def execScript (page : Memory) (filename : ByteString) (argv : List ByteString) (forked : Int) :
    ExecEnd :=
  let interpBegin := scan page (fun byte => !isBlank byte) (execPgsize - 2) 2
  let interpEnd := scan page endsWord (execPgsize - interpBegin) interpBegin
  if interpBegin = interpEnd ∨ page interpBegin = 0 then .returned (-execEnoexec)
  else if execPgsize ≤ interpEnd then .outOfBounds
  else if page interpEnd = newline then
    let page := Function.update page interpEnd 0
    execForked forked <| (cString page interpBegin).map fun interp =>
      sandboxPath :: ldPath :: interp :: filename :: argv
  else
    let argBegin := interpEnd + 1
    let argEnd := scan page endsLine (execPgsize - interpEnd) interpEnd
    if execPgsize ≤ argEnd then .outOfBounds
    else
      let page := Function.update (Function.update page argEnd 0) interpEnd 0
      execForked forked <| (cString page interpBegin).bind fun interp =>
        (cString page argBegin).map fun arg => sandboxPath :: ldPath :: interp :: arg :: filename :: argv

/-- `opened` is the file, or the error of `open`, and `stale` the old bytes of the stack. -/
@[grind =] def execExecev (filename : ByteString) (opened : Except Int ByteString) (argv : List ByteString)
    (stale : Memory) (forked : Int) : ExecEnd :=
  match opened with
  | .error errno => .returned (-errno)
  | .ok file =>
      let bytes := file.take execPgsize
      let page := pageOf bytes stale
      match fileKind bytes.length page with
      | .short | .other => .returned (-execEnoexec)
      | .elf => execForked forked (some (sandboxPath :: ldPath :: argv))
      | .script => execScript page filename argv forked

/-! The header of a script as it is documented. -/

/-- What follows the first two bytes, of those that are read. -/
def afterMagic (file : ByteString) : ByteString := (file.take execPgsize).drop 2

/-- The first line up to its newline, or to a NUL. -/
def headerLine (file : ByteString) : ByteString := (afterMagic file).takeWhile fun byte => !endsLine byte

/-- The byte that ends the line, if it is among those that are read. -/
def lineEnd (file : ByteString) : Option (BitVec 8) :=
  ((afterMagic file).dropWhile fun byte => !endsLine byte).head?

def interpreter (file : ByteString) : ByteString :=
  ((headerLine file).dropWhile isBlank).takeWhile fun byte => !isBlank byte

/-- The line from the blank after the interpreter on. -/
def afterInterpreter (file : ByteString) : ByteString :=
  ((headerLine file).dropWhile isBlank).dropWhile fun byte => !isBlank byte

/-- The rest of the line. The blank that ends the interpreter is no part of it. -/
def lineRest (file : ByteString) : ByteString := (afterInterpreter file).tail

def documentedArgs (filename file : ByteString) (argv : List ByteString) : List ByteString :=
  sandboxPath :: ldPath :: interpreter file ::
    (if lineRest file = [] then [] else [lineRest file]) ++ filename :: argv.tail

def IsScript (file : ByteString) : Prop := file.take 2 = [0x23, 0x21]

instance (file : ByteString) : Decidable (IsScript file) :=
  inferInstanceAs (Decidable (_ = _))

/-- A script is known by its first two bytes, nothing but the bytes that were read is used, and
the new argument list is the documented one. -/
structure ExecRight (filename file : ByteString) (argv : List ByteString) : Prop where
  script : ∀ stale, fileKind (file.take execPgsize).length (pageOf (file.take execPgsize) stale) = .script ↔
    IsScript file
  inBounds : ∀ stale forked, execExecev filename (.ok file) argv stale forked ≠ .outOfBounds
  readBytes : ∀ stale other forked,
    execExecev filename (.ok file) argv stale forked = execExecev filename (.ok file) argv other forked
  args : IsScript file → ∀ stale forked args,
    execExecev filename (.ok file) argv stale forked = .execve args →
      args = documentedArgs filename file argv

section Scan

variable {page : Memory} {start fuel : Nat} {bytes : ByteString} {stop : BitVec 8 → Bool}

/-- A loop that nothing stops within the bytes, and that the byte after them stops. -/
theorem scan_holds (held : Holds page start bytes) (inside : ∀ byte ∈ bytes, stop byte = false)
    (short : bytes.length ≤ fuel)
    (ends : bytes.length < fuel → stop (page (start + bytes.length)) = true) :
    scan page stop fuel start = start + bytes.length := by
  induction bytes generalizing start fuel with
  | nil =>
      cases fuel with
      | zero => rfl
      | succ fuel => exact if_pos (ends (Nat.succ_pos fuel))
  | cons byte bytes ih =>
      obtain ⟨first, rest⟩ := holds_cons.mp held
      rw [List.length_cons] at short ends ⊢
      cases fuel with
      | zero => omega
      | succ fuel =>
          have goesOn : ¬ stop (page start) = true := by
            rw [first, inside byte List.mem_cons_self]
            exact nofun
          have place : start + (bytes.length + 1) = start + 1 + bytes.length := by omega
          rw [place] at ends ⊢
          rw [scan, if_neg goesOn]
          exact ih rest (fun byte member => inside byte (List.mem_cons_of_mem _ member)) (by omega)
            fun early => ends (by omega)

theorem cString_holds (held : Holds page start bytes) (noNul : ∀ byte ∈ bytes, byte ≠ 0)
    (ended : page (start + bytes.length) = 0) (inPage : start + bytes.length < execPgsize) :
    cString page start = some bytes := by
  have stopped : scan page (· = 0) (execPgsize - start) start = start + bytes.length :=
    scan_holds held (fun byte member => decide_eq_false (noNul byte member)) (by omega) fun _ =>
      decide_eq_true ended
  rw [cString, stopped]
  rw [if_pos inPage, Nat.add_sub_cancel_left]
  refine congrArg some (List.ext_getElem ?_ fun index _ inside => ?_)
  · rw [List.length_map, List.length_range']
  · rw [List.getElem_map, List.getElem_range', Nat.one_mul]
    exact held index inside

end Scan

/-- The header in the page: blanks, the interpreter, what follows it, and the byte that ends
the line. -/
structure HeaderOn (page : Memory) (blanks interp after : ByteString) (final : BitVec 8) : Prop where
  blanksHeld : Holds page 2 blanks
  interpHeld : Holds page (2 + blanks.length) interp
  afterHeld : Holds page (2 + blanks.length + interp.length) after
  finalHeld : page (2 + blanks.length + interp.length + after.length) = final
  blank : ∀ byte ∈ blanks, isBlank byte = true
  word : ∀ byte ∈ interp, endsWord byte = false
  rest : ∀ byte ∈ after, endsLine byte = false
  first : ∀ byte ∈ after.head?, isBlank byte = true
  only : interp = [] → after = []
  ends : endsLine final = true
  inPage : 2 + blanks.length + interp.length + after.length ≤ execPgsize

section Header

variable {page : Memory} {blanks interp after filename : ByteString} {final : BitVec 8} {argv : List ByteString}
  {forked : Int}

theorem endsLine_word {byte : BitVec 8} (ends : endsLine byte = true) :
    isBlank byte = false ∧ endsWord byte = true := by
  rw [endsWord, ends, Bool.or_true]
  refine ⟨?_, rfl⟩
  simp only [endsLine, Bool.or_eq_true, decide_eq_true_eq] at ends
  rcases ends with rfl | rfl <;> rfl

theorem HeaderOn.interpBegin (header : HeaderOn page blanks interp after final) :
    scan page (fun byte => !isBlank byte) (execPgsize - 2) 2 = 2 + blanks.length := by
  have inPage := header.inPage
  refine scan_holds header.blanksHeld (fun byte member => ?_) (by omega) fun _ => ?_
  · rw [header.blank byte member]
    rfl
  have next : isBlank (page (2 + blanks.length)) = false := by
    cases interp with
    | nil =>
        obtain rfl := header.only rfl
        have last : page (2 + blanks.length) = final := header.finalHeld
        rw [last]
        exact (endsLine_word header.ends).1
    | cons byte interp =>
        rw [(holds_cons.mp header.interpHeld).1]
        exact (Bool.or_eq_false_iff.mp (header.word byte List.mem_cons_self)).1
  rw [next]
  rfl

theorem HeaderOn.interpEnd (header : HeaderOn page blanks interp after final) :
    scan page endsWord (execPgsize - (2 + blanks.length)) (2 + blanks.length) =
      2 + blanks.length + interp.length := by
  have inPage := header.inPage
  refine scan_holds header.interpHeld header.word (by omega) fun _ => ?_
  cases after with
  | nil =>
      have last : page (2 + blanks.length + interp.length) = final := header.finalHeld
      rw [last]
      exact (endsLine_word header.ends).2
  | cons byte after =>
      rw [(holds_cons.mp header.afterHeld).1, endsWord, header.first byte rfl, Bool.true_or]

theorem HeaderOn.argEnd (header : HeaderOn page blanks interp after final) :
    scan page endsLine (execPgsize - (2 + blanks.length + interp.length)) (2 + blanks.length + interp.length) =
      2 + blanks.length + interp.length + after.length := by
  have inPage := header.inPage
  refine scan_holds header.afterHeld header.rest (by omega) fun _ => ?_
  rw [header.finalHeld]
  exact header.ends

/-- Without an interpreter nothing is started. -/
theorem HeaderOn.noInterp (header : HeaderOn page blanks [] after final) :
    execScript page filename argv forked = .returned (-execEnoexec) := by
  simp only [execScript, header.interpBegin, header.interpEnd]
  exact if_pos (.inl rfl)

theorem HeaderOn.interp_found (header : HeaderOn page blanks interp after final) (found : interp ≠ []) :
    ¬ (2 + blanks.length = 2 + blanks.length + interp.length ∨ page (2 + blanks.length) = 0) := by
  cases interp with
  | nil => exact absurd rfl found
  | cons byte interp =>
      rw [(holds_cons.mp header.interpHeld).1, List.length_cons]
      rintro (same | rfl)
      · omega
      · exact nomatch header.word 0 List.mem_cons_self

/-- What follows an interpreter that ends before the line does is no newline. -/
theorem HeaderOn.not_newline (header : HeaderOn page blanks interp after final)
    (goesOn : after = [] → final ≠ newline) : page (2 + blanks.length + interp.length) ≠ newline := by
  cases after with
  | nil =>
      have last : page (2 + blanks.length + interp.length) = final := header.finalHeld
      rw [last]
      exact goesOn rfl
  | cons byte after =>
      rw [(holds_cons.mp header.afterHeld).1]
      rintro rfl
      exact nomatch header.first newline rfl

/-- A line that fills the page is overrun. -/
theorem HeaderOn.overrun (header : HeaderOn page blanks interp after final) (found : interp ≠ [])
    (full : 2 + blanks.length + interp.length + after.length = execPgsize) :
    execScript page filename argv forked = .outOfBounds := by
  simp only [execScript, header.interpBegin, header.interpEnd, header.argEnd, if_neg (header.interp_found found)]
  by_cases whole : execPgsize ≤ 2 + blanks.length + interp.length
  · exact if_pos whole
  · have goesOn : after = [] → final ≠ newline := by
      rintro rfl
      exact absurd (Nat.le_of_eq full.symm) whole
    rw [if_neg whole, if_neg (header.not_newline goesOn), if_pos (Nat.le_of_eq full.symm)]

theorem HeaderOn.interp_string (header : HeaderOn page blanks interp after final)
    (inPage : 2 + blanks.length + interp.length < execPgsize) :
    cString (Function.update page (2 + blanks.length + interp.length) 0) (2 + blanks.length) = some interp := by
  refine cString_holds (header.interpHeld.update 0 (.inr (Nat.le_refl _))) (fun byte member => ?_)
    (Function.update_self ..) inPage
  rintro rfl
  exact nomatch header.word 0 member

/-- The interpreter alone, on a line that ends with a newline. -/
theorem HeaderOn.alone (header : HeaderOn page blanks interp [] newline) (found : interp ≠ [])
    (inPage : 2 + blanks.length + interp.length < execPgsize) :
    execScript page filename argv forked =
      execForked forked (some (sandboxPath :: ldPath :: interp :: filename :: argv)) := by
  have last : page (2 + blanks.length + interp.length) = newline := header.finalHeld
  simp only [execScript, header.interpBegin, header.interpEnd, if_neg (header.interp_found found),
    if_neg (Nat.not_le.mpr inPage), if_pos last, header.interp_string inPage, Option.map_some]

/-- Otherwise there is an argument, whatever the string after the interpreter's end is. -/
theorem HeaderOn.withArg (header : HeaderOn page blanks interp after final) (found : interp ≠ [])
    (inPage : 2 + blanks.length + interp.length + after.length < execPgsize)
    (goesOn : after = [] → final ≠ newline) :
    execScript page filename argv forked = execForked forked
      ((cString (Function.update (Function.update page (2 + blanks.length + interp.length + after.length) 0)
        (2 + blanks.length + interp.length) 0) (2 + blanks.length + interp.length + 1)).map fun arg =>
          sandboxPath :: ldPath :: interp :: arg :: filename :: argv) := by
  have early : ¬ execPgsize ≤ 2 + blanks.length + interp.length := by omega
  have ended : HeaderOn (Function.update page (2 + blanks.length + interp.length + after.length) 0) blanks
      interp after 0 :=
    { header with
      blanksHeld := header.blanksHeld.update 0 (.inr (by omega))
      interpHeld := header.interpHeld.update 0 (.inr (by omega))
      afterHeld := header.afterHeld.update 0 (.inr (Nat.le_refl _))
      finalHeld := Function.update_self ..
      ends := rfl }
  simp only [execScript, header.interpBegin, header.interpEnd, header.argEnd, if_neg (header.interp_found found),
    if_neg early, if_neg (header.not_newline goesOn), if_neg (Nat.not_le.mpr inPage),
    ended.interp_string (Nat.not_le.mp early), Option.bind_some]

/-- The rest of the line as the argument. -/
theorem HeaderOn.withRest {byte : BitVec 8} {rest : ByteString}
    (header : HeaderOn page blanks interp (byte :: rest) final) (found : interp ≠ [])
    (inPage : 2 + blanks.length + interp.length + (byte :: rest).length < execPgsize) :
    execScript page filename argv forked =
      execForked forked (some (sandboxPath :: ldPath :: interp :: rest :: filename :: argv)) := by
  rw [header.withArg found inPage nofun]
  rw [List.length_cons] at inPage ⊢
  have held := (holds_cons.mp header.afterHeld).2
  rw [cString_holds ((held.update 0 (.inr (by omega))).update 0 (.inl (by omega))), Option.map_some]
  · rintro member inRest rfl
    exact nomatch header.rest 0 (List.mem_cons_of_mem _ inRest)
  · have place : 2 + blanks.length + interp.length + 1 + rest.length =
        2 + blanks.length + interp.length + (rest.length + 1) := by omega
    rw [place, Function.update_of_ne (by omega), Function.update_self]
  · omega

end Header

section File

variable {file filename : ByteString} {argv : List ByteString}

theorem pageOf_holds (bytes : ByteString) (stale : Memory) : Holds (pageOf bytes stale) 0 bytes := by
  intro index inside
  rw [Nat.zero_add, pageOf, List.getD_eq_getElem _ _ inside]

theorem pageOf_end (bytes : ByteString) (stale : Memory) : pageOf bytes stale bytes.length = 0 := by
  rw [pageOf, List.getD_eq_default _ _ (Nat.le_refl _), if_pos rfl]

theorem headerLine_split (file : ByteString) :
    headerLine file = (headerLine file).takeWhile isBlank ++ interpreter file ++ afterInterpreter file := by
  rw [List.append_assoc, interpreter, afterInterpreter, List.takeWhile_append_dropWhile,
    List.takeWhile_append_dropWhile]

theorem headerLine_length (file : ByteString) : (headerLine file).length =
    ((headerLine file).takeWhile isBlank).length + (interpreter file).length + (afterInterpreter file).length := by
  have split := congrArg List.length (headerLine_split file)
  rwa [List.length_append, List.length_append] at split

theorem afterMagic_length (long : 2 ≤ file.length) :
    2 + (afterMagic file).length = min execPgsize file.length := by
  have size : execPgsize = 4096 := rfl
  rw [afterMagic, List.length_drop, List.length_take]
  omega

theorem afterMagic_holds (long : 2 ≤ file.length) (stale : Memory) :
    Holds (pageOf (file.take execPgsize) stale) 2 (afterMagic file) := by
  have size : execPgsize = 4096 := rfl
  have held := pageOf_holds (file.take execPgsize) stale
  rw [← List.take_append_drop 2 (file.take execPgsize), holds_append, List.length_take, List.length_take,
    List.take_append_drop] at held
  have place : 0 + min 2 (min execPgsize file.length) = 2 := by omega
  rw [place] at held
  exact held.2

/-- The byte after the line is the one that ends it, or the NUL after the file. -/
theorem lineEnd_held (long : 2 ≤ file.length) (stale : Memory) :
    pageOf (file.take execPgsize) stale (2 + (headerLine file).length) = (lineEnd file).getD 0 := by
  have held := afterMagic_holds long stale
  have split := (List.takeWhile_append_dropWhile (p := fun byte => !endsLine byte) (l := afterMagic file)).symm
  cases ended : (afterMagic file).dropWhile fun byte => !endsLine byte with
  | nil =>
      rw [ended, List.append_nil] at split
      have total := afterMagic_length long
      rw [split, ← headerLine, ← List.length_take] at total
      rw [lineEnd, ended, total, pageOf_end]
      rfl
  | cons byte rest =>
      rw [split, ended, ← headerLine, holds_append, holds_cons] at held
      rw [lineEnd, ended, held.2.1]
      rfl

theorem lineEnd_ends (file : ByteString) : endsLine ((lineEnd file).getD 0) = true := by
  have stopped := List.head?_dropWhile_not (fun byte => !endsLine byte) (afterMagic file)
  rw [lineEnd]
  cases ended : ((afterMagic file).dropWhile fun byte => !endsLine byte).head? with
  | none => rfl
  | some byte =>
      rw [ended] at stopped
      simpa using stopped

/-- The line ends before the page does. -/
theorem line_inPage (long : 2 ≤ file.length) :
    2 + (headerLine file).length < execPgsize ↔ lineEnd file ≠ none ∨ file.length < execPgsize := by
  have total := afterMagic_length long
  have split := congrArg List.length
    (List.takeWhile_append_dropWhile (p := fun byte => !endsLine byte) (l := afterMagic file)).symm
  rw [List.length_append, ← headerLine] at split
  rw [lineEnd]
  cases ended : (afterMagic file).dropWhile fun byte => !endsLine byte with
  | nil =>
      rw [ended, List.length_nil] at split
      simp only [List.head?_nil, ne_eq, not_true_eq_false, false_or]
      omega
  | cons byte rest =>
      rw [ended, List.length_cons] at split
      simp only [List.head?_cons, ne_eq, reduceCtorEq, not_false_eq_true, true_or, iff_true]
      omega

theorem line_member {byte : BitVec 8} (member : byte ∈ headerLine file) : endsLine byte = false := by
  have inside := List.mem_takeWhile_imp member
  simpa using inside

theorem noInterp_nothing (none : interpreter file = []) : afterInterpreter file = [] := by
  have stopped := List.head?_dropWhile_not isBlank (headerLine file)
  rw [interpreter] at none
  rw [afterInterpreter]
  cases words : (headerLine file).dropWhile isBlank with
  | nil => rfl
  | cons byte rest =>
      rw [words] at stopped none
      have word : isBlank byte = false := stopped
      rw [List.takeWhile_cons, word] at none
      exact nomatch none

theorem headerOn (long : 2 ≤ file.length) (stale : Memory) :
    HeaderOn (pageOf (file.take execPgsize) stale) ((headerLine file).takeWhile isBlank) (interpreter file)
      (afterInterpreter file) ((lineEnd file).getD 0) := by
  have split := headerLine_split file
  have length := headerLine_length file
  have held : Holds (pageOf (file.take execPgsize) stale) 2 (headerLine file) := by
    have whole := afterMagic_holds long stale
    rw [← List.takeWhile_append_dropWhile (p := fun byte => !endsLine byte) (l := afterMagic file)] at whole
    exact (holds_append.mp whole).1
  have final := lineEnd_held long stale
  rw [split, holds_append, holds_append] at held
  have inLine {byte : BitVec 8} (member : byte ∈ interpreter file ++ afterInterpreter file) :
      endsLine byte = false := by
    have whole : byte ∈ headerLine file := by
      rw [split, List.append_assoc]
      exact List.mem_append_right _ member
    exact line_member whole
  refine ⟨held.1.1, held.1.2, ?_, ?_, fun _ => List.mem_takeWhile_imp, fun byte member => ?_,
    fun _ member => inLine (List.mem_append_right _ member), fun byte first => ?_, noInterp_nothing,
    lineEnd_ends file, ?_⟩
  · rw [Nat.add_assoc, ← List.length_append]
    exact held.2
  · rw [Nat.add_assoc, Nat.add_assoc, ← Nat.add_assoc _ _ (afterInterpreter file).length, ← length]
    exact final
  · have word := List.mem_takeWhile_imp member
    rw [endsWord, inLine (List.mem_append_left _ member), Bool.or_false]
    simpa using word
  · have stopped := List.head?_dropWhile_not (fun byte => !isBlank byte) ((headerLine file).dropWhile isBlank)
    rw [afterInterpreter] at first
    rw [Option.mem_def.mp first] at stopped
    simpa using stopped
  · have total := afterMagic_length long
    have part := (List.takeWhile_prefix (fun byte => !endsLine byte) (l := afterMagic file)).length_le
    rw [← headerLine] at part
    omega

theorem fileKind_script {first second : BitVec 8} {rest : ByteString} (stale : Memory) :
    fileKind ((first :: second :: rest).take execPgsize).length
        (pageOf ((first :: second :: rest).take execPgsize) stale) = .script ↔ first = 0x23 ∨ second = 0x21 := by
  have held := pageOf_holds ((first :: second :: rest).take execPgsize) stale
  have taken : (first :: second :: rest).take execPgsize = first :: second :: rest.take 4094 := rfl
  rw [taken] at held ⊢
  have firstByte := (holds_cons.mp held).1
  have secondByte := (holds_cons.mp (holds_cons.mp held).2).1
  rw [fileKind, if_neg (by rw [List.length_cons, List.length_cons]; omega), firstByte, secondByte]
  by_cases elf : first = 0x7f ∧ second = 0x45 ∧ pageOf (first :: second :: rest.take 4094) stale 2 = 0x4c ∧
      pageOf (first :: second :: rest.take 4094) stale 3 = 0x46
  · rw [if_pos elf]
    obtain ⟨rfl, rfl, _⟩ := elf
    exact iff_of_false nofun (by decide)
  · rw [if_neg elf]
    by_cases magic : first = 0x23 ∨ second = 0x21
    · exact iff_of_true (if_pos magic) magic
    · rw [if_neg magic]
      exact iff_of_false nofun magic

theorem short_kind (short : file.length < 2) (stale : Memory) :
    fileKind (file.take execPgsize).length (pageOf (file.take execPgsize) stale) = .short := by
  have length := List.length_take_le' execPgsize file
  exact if_pos (by omega)

/-- The exact condition on the file and the arguments. -/
structure ScriptServed (file : ByteString) (argv : List ByteString) : Prop where
  magic : ∀ first second rest, file = first :: second :: rest → (first = 0x23 ↔ second = 0x21)
  noArgs : IsScript file → interpreter file ≠ [] → argv = []
  alone : IsScript file → interpreter file ≠ [] → afterInterpreter file = [] → lineEnd file = some newline
  withRest : IsScript file → interpreter file ≠ [] → afterInterpreter file ≠ [] →
    lineRest file ≠ [] ∧ (lineEnd file ≠ none ∨ file.length < execPgsize)

theorem isScript_cons {first second : BitVec 8} {rest : ByteString} :
    IsScript (first :: second :: rest) ↔ first = 0x23 ∧ second = 0x21 := by
  rw [IsScript, List.take_succ_cons, List.take_succ_cons, List.take_zero, List.cons.injEq, List.cons.injEq,
    eq_self, and_true]

theorem isScript_length (script : IsScript file) : 2 ≤ file.length := by
  have length := congrArg List.length script
  rw [List.length_take] at length
  have two : [(0x23 : BitVec 8), 0x21].length = 2 := rfl
  omega

theorem script_kind_iff : (∀ stale, fileKind (file.take execPgsize).length
      (pageOf (file.take execPgsize) stale) = .script ↔ IsScript file) ↔
    ∀ first second rest, file = first :: second :: rest → (first = 0x23 ↔ second = 0x21) := by
  constructor
  · rintro same first second rest rfl
    have kinds := same fun _ => 0
    rw [fileKind_script, isScript_cons] at kinds
    tauto
  · intro magic stale
    by_cases short : file.length < 2
    · rw [short_kind short]
      exact iff_of_false nofun fun script => absurd (isScript_length script) (Nat.not_le.mpr short)
    · rcases file with _ | ⟨first, _ | ⟨second, rest⟩⟩
      · exact absurd (Nat.zero_lt_succ 1) short
      · exact absurd (Nat.lt_succ_self 1) short
      · have bytes := magic first second rest rfl
        rw [fileKind_script, isScript_cons]
        tauto

/-- The NUL after a shorter file is no part of the four bytes. -/
theorem fileKind_elf (stale : Memory) : fileKind (file.take execPgsize).length
    (pageOf (file.take execPgsize) stale) = .elf ↔ file.take 4 = [0x7f, 0x45, 0x4c, 0x46] := by
  by_cases short : file.length < 2
  · rw [short_kind short]
    refine iff_of_false nofun fun elf => ?_
    have length := congrArg List.length elf
    rw [List.length_take] at length
    have four : [(0x7f : BitVec 8), 0x45, 0x4c, 0x46].length = 4 := rfl
    omega
  have long : ¬ (file.take execPgsize).length < 2 := by
    have size : execPgsize = 4096 := rfl
    rw [List.length_take]
    omega
  have kind : fileKind (file.take execPgsize).length (pageOf (file.take execPgsize) stale) = .elf ↔
      pageOf (file.take execPgsize) stale 0 = 0x7f ∧ pageOf (file.take execPgsize) stale 1 = 0x45 ∧
        pageOf (file.take execPgsize) stale 2 = 0x4c ∧ pageOf (file.take execPgsize) stale 3 = 0x46 := by
    rw [fileKind, if_neg long]
    split
    · rename_i elf
      exact iff_of_true rfl elf
    · rename_i other
      refine iff_of_false ?_ other
      split <;> exact nofun
  rw [kind]
  rcases file with _ | ⟨first, _ | ⟨second, _ | ⟨third, _ | ⟨fourth, rest⟩⟩⟩⟩
  · exact absurd (Nat.zero_lt_succ 1) short
  · exact absurd (Nat.lt_succ_self 1) short
  · exact iff_of_false (fun elf => nomatch elf.2.2.1) nofun
  · exact iff_of_false (fun elf => nomatch elf.2.2.2) nofun
  · have taken : (first :: second :: third :: fourth :: rest).take execPgsize =
        first :: second :: third :: fourth :: rest.take 4092 := rfl
    simp only [taken, pageOf, List.getD_cons_zero, List.getD_cons_succ, List.take_succ_cons, List.take_zero,
      List.cons.injEq, and_true]

/-- The call comes to an answer of its own that the old bytes of the stack have no part in. -/
theorem served_answer (served : ScriptServed file argv) (filename : ByteString) :
    ∃ answer : Option (List ByteString),
      (IsScript file → ∀ args ∈ answer, args = documentedArgs filename file argv) ∧
      ∀ stale forked, execExecev filename (.ok file) argv stale forked =
        match answer with
        | some args => execForked forked (some args)
        | none => .returned (-execEnoexec) := by
  by_cases script : IsScript file
  · have long := isScript_length script
    have kind := script_kind_iff.mpr served.magic
    have length := headerLine_length file
    by_cases found : interpreter file = []
    · refine ⟨none, fun _ => nofun, fun stale forked => ?_⟩
      have header := headerOn long stale
      rw [found] at header
      simp only [execExecev, (kind stale).mpr script, header.noInterp]
    · obtain rfl := served.noArgs script found
      refine ⟨some (documentedArgs filename file []), fun _ args same => (Option.some.inj same).symm,
        fun stale forked => ?_⟩
      have header := headerOn long stale
      simp only [execExecev, (kind stale).mpr script]
      cases after : afterInterpreter file with
      | nil =>
          have newlineEnd := served.alone script found after
          have inPage := (line_inPage long).mpr (.inl (by rw [newlineEnd]; exact nofun))
          rw [after, newlineEnd, Option.getD_some] at header
          rw [after, List.length_nil] at length
          rw [header.alone found (by omega), documentedArgs, lineRest, after]
          rfl
      | cons byte rest =>
          have notEmpty : afterInterpreter file ≠ [] := by
            rw [after]
            exact nofun
          obtain ⟨restFound, ended⟩ := served.withRest script found notEmpty
          have inPage := (line_inPage long).mpr ended
          rw [after] at header length
          rw [lineRest, after, List.tail_cons] at restFound
          rw [header.withRest found (by omega), documentedArgs, lineRest, after, List.tail_cons,
            if_neg restFound]
          rfl
  · have kind := script_kind_iff.mpr served.magic
    by_cases elf : file.take 4 = [0x7f, 0x45, 0x4c, 0x46]
    · refine ⟨some (sandboxPath :: ldPath :: argv), fun isScript => absurd isScript script, fun stale forked => ?_⟩
      simp only [execExecev, (fileKind_elf stale).mpr elf]
    · refine ⟨none, fun _ => nofun, fun stale forked => ?_⟩
      have notScript := mt (kind stale).mp script
      have notElf := mt (fileKind_elf stale).mp elf
      simp only [execExecev]
      cases found : fileKind (file.take execPgsize).length (pageOf (file.take execPgsize) stale) with
      | short | other => rfl
      | elf => exact absurd found notElf
      | script => exact absurd found notScript

theorem execForked_args {forked : Int} {newArgv : Option (List ByteString)} {args : List ByteString}
    (ended : execForked forked newArgv = .execve args) : newArgv = some args := by
  simp only [execForked] at ended
  split at ended
  · exact nomatch ended
  split at ended
  · exact nomatch ended
  split at ended
  · exact congrArg some (ExecEnd.execve.inj ended)
  · exact nomatch ended

theorem execForked_inBounds (forked : Int) (args : List ByteString) :
    execForked forked (some args) ≠ .outOfBounds := by
  rw [execForked]
  split
  · exact nofun
  split <;> exact nofun

theorem ScriptServed.right (served : ScriptServed file argv) (filename : ByteString) :
    ExecRight filename file argv := by
  obtain ⟨answer, documented, comes⟩ := served_answer served filename
  refine ⟨script_kind_iff.mpr served.magic, fun stale forked => ?_, fun stale other forked => ?_,
    fun script stale forked args ended => ?_⟩
  · rw [comes]
    cases answer with
    | none => exact nofun
    | some args => exact execForked_inBounds forked args
  · rw [comes, comes]
  · rw [comes] at ended
    cases answer with
    | none => exact nomatch ended
    | some newArgv => exact documented script args (execForked_args ended)

/-- A child's call on a right answer. -/
theorem ExecRight.child (right : ExecRight filename file argv) (script : IsScript file)
    {newArgv : Option (List ByteString)}
    (comes : execScript (pageOf (file.take execPgsize) fun _ => 0) filename argv 0 = execForked 0 newArgv) :
    newArgv = some (documentedArgs filename file argv) := by
  have ran : execExecev filename (.ok file) argv (fun _ => 0) 0 = execForked 0 newArgv := by
    rw [← comes]
    simp only [execExecev, (right.script _).mpr script]
  cases newArgv with
  | none => exact absurd ran (right.inBounds _ _)
  | some args => exact congrArg some (right.args script _ _ args ran)

theorem ExecRight.served (right : ExecRight filename file argv) : ScriptServed file argv := by
  have inPage (script : IsScript file) (found : interpreter file ≠ []) :
      2 + (headerLine file).length < execPgsize := by
    have long := isScript_length script
    have header := headerOn long fun _ => 0
    have length := headerLine_length file
    have total := header.inPage
    by_contra full
    refine right.inBounds (fun _ => 0) 0 ?_
    simp only [execExecev, (right.script _).mpr script]
    exact header.overrun found (by omega)
  have alone (script : IsScript file) (found : interpreter file ≠ []) (after : afterInterpreter file = []) :
      lineEnd file = some newline := by
    have header := headerOn (isScript_length script) fun _ => 0
    have length := headerLine_length file
    have short := inPage script found
    by_contra differs
    have goesOn : (lineEnd file).getD 0 ≠ newline := by
      cases ended : lineEnd file with
      | none => decide
      | some byte =>
          rintro rfl
          exact differs ended
    have documented := right.child script (header.withArg found (by omega) fun _ => goesOn)
    obtain ⟨arg, _, args⟩ := Option.map_eq_some_iff.mp documented
    have count := congrArg List.length args
    simp only [documentedArgs, lineRest, after, List.tail_nil, if_true, List.length_cons, List.length_append,
      List.length_nil, List.length_tail] at count
    omega
  have withRest (script : IsScript file) (found : interpreter file ≠ []) {byte : BitVec 8} {rest : ByteString}
      (after : afterInterpreter file = byte :: rest) : rest ≠ [] ∧ argv = [] := by
    have header := headerOn (isScript_length script) fun _ => 0
    have length := headerLine_length file
    have short := inPage script found
    rw [after] at header length
    have count := congrArg List.length
      (Option.some.inj (right.child script (header.withRest found (by omega))))
    rw [documentedArgs, lineRest, after, List.tail_cons] at count
    by_cases empty : rest = []
    · simp only [empty, if_true, List.length_cons, List.length_append, List.length_nil,
        List.length_tail] at count
      omega
    · simp only [empty, if_false, List.length_cons, List.length_append, List.length_nil,
        List.length_tail] at count
      exact ⟨empty, List.length_eq_zero_iff.mp (by omega)⟩
  refine ⟨script_kind_iff.mp right.script, fun script found => ?_, alone, fun script found after => ?_⟩
  · cases after : afterInterpreter file with
    | nil =>
        have header := headerOn (isScript_length script) fun _ => 0
        have length := headerLine_length file
        have short := inPage script found
        rw [after, alone script found after, Option.getD_some] at header
        rw [after, List.length_nil] at length
        have count := congrArg List.length
          (Option.some.inj (right.child script (header.alone found (by omega))))
        simp only [documentedArgs, lineRest, after, List.tail_nil, if_true, List.length_cons,
          List.length_append, List.length_nil, List.length_tail] at count
        exact List.length_eq_zero_iff.mp (by omega)
    | cons byte rest => exact (withRest script found after).2
  · obtain ⟨byte, rest, split⟩ := List.exists_cons_of_ne_nil after
    refine ⟨?_, (line_inPage (isScript_length script)).mp (inPage script found)⟩
    rw [lineRest, split, List.tail_cons]
    exact (withRest script found split).1

/-- A script is run as it is documented exactly when its two first bytes are told right, the
program is called without arguments, and the line is a newline-ended interpreter or has a rest
that ends within the page. -/
theorem exec_right_iff (filename file : ByteString) (argv : List ByteString) :
    ExecRight filename file argv ↔ ScriptServed file argv :=
  ⟨ExecRight.served, fun served => served.right filename⟩

end File

def runPath : ByteString := asciiBytes "./run"

/-- `./run` is passed its own name on. Without a newline the interpreter gets an argument, after a
blank an empty one, and a comment is run as a script. -/
theorem headers_misread : ¬ ExecRight runPath (asciiBytes "#!/bin/sh\n") [runPath] ∧
    ¬ ExecRight runPath (asciiBytes "#!/bin/sh") [] ∧ ¬ ExecRight runPath (asciiBytes "#!/bin/sh \n") [] ∧
    ¬ ExecRight runPath (asciiBytes "# sh\n") [] := by
  refine ⟨fun right => ?_, fun right => ?_, fun right => ?_, fun right => ?_⟩
  · exact nomatch right.served.noArgs (by decide +kernel) (by decide +kernel)
  · have ended := right.served.alone (by decide +kernel) (by decide +kernel) (by decide +kernel)
    exact absurd ended (by decide +kernel)
  · have rest := (right.served.withRest (by decide +kernel) (by decide +kernel) (by decide +kernel)).1
    exact rest (by decide +kernel)
  · have magic := right.served.magic 0x23 0x20 _ rfl
    exact absurd (magic.mp rfl) (by decide)

end RdmaPaging
