import RdmaPaging.ByteMemory
import RdmaPaging.UmmCore

/-!
The stack that a sandboxed program starts on, `setup_arguments` of the sandbox's `main.c`.
The strings go to the end of the stack, and the words that point to them below.
-/

namespace RdmaPaging

open ByteMemory

/-- A string of the old stack, without its NUL. -/
structure CString where
  addr : Nat
  bytes : List (BitVec 8)
  noNul : ∀ byte ∈ bytes, byte ≠ 0
  inSpace : addr + bytes.length < 2 ^ 47

/-- The bytes that `stpcpy` copies. -/
def CString.stored (string : CString) : List (BitVec 8) := string.bytes ++ [0]

/-- `strlen(string) + 1`. -/
def CString.size (string : CString) : Nat := string.bytes.length + 1

structure Auxv where
  aType : BitVec 64
  aVal : BitVec 64
  deriving DecidableEq

structure ElfData where
  entry : VirtAddr
  phdr : VirtAddr
  phnum : BitVec 32

/-- The end of a stack of `umm_alloc_stack`, whose lowest page is not mapped. -/
structure StackTop where
  sp : Nat
  room : appStackSize.toNat ≤ sp
  inSpace : sp < 2 ^ 47

def stackMapped : Nat := appStackSize.toNat - 0x1000

def atNull : BitVec 64 := 0
def atPhdr : BitVec 64 := 3
def atPhnum : BitVec 64 := 5
def atPagesz : BitVec 64 := 6
def atFlags : BitVec 64 := 8
def atEntry : BitVec 64 := 9
def atUid : BitVec 64 := 11
def atEuid : BitVec 64 := 12
def atGid : BitVec 64 := 13
def atEgid : BitVec 64 := 14
def atHwcap : BitVec 64 := 16
def atClktck : BitVec 64 := 17
def atSecure : BitVec 64 := 23
def atRandom : BitVec 64 := 25

def numAux : Nat := 13

/-- `argc`, and the bytes from the first string to the end of the last. -/
def countArgs : List CString → Nat × Size
  | [] => (0, 0)
  | first :: rest =>
      let last := rest.getLastD first
      (rest.length + 1,
        BitVec.ofNat 64 (last.addr + last.bytes.length) - BitVec.ofNat 64 first.addr + 1)

def findAuxEntry : List Auxv → BitVec 64 → Option Auxv
  | [], _ => none
  | aux :: rest, type =>
      if aux.aType = atNull then none else if aux.aType = type then some aux else findAuxEntry rest type

/-- Where the next word and the next string go. -/
structure StackFill where
  mem : Memory
  argPtr : Nat
  dataPtr : Nat

def StackFill.word (fill : StackFill) (word : BitVec 64) : StackFill :=
  { fill with mem := store fill.mem fill.argPtr (wordBytes word), argPtr := fill.argPtr + 8 }

/-- Stores the pointer, then the string. -/
def StackFill.string (fill : StackFill) (string : CString) : StackFill :=
  let pointed := fill.word (BitVec.ofNat 64 fill.dataPtr)
  { pointed with
    mem := store pointed.mem fill.dataPtr string.stored
    dataPtr := fill.dataPtr + string.size }

def StackFill.entry (fill : StackFill) (type val : BitVec 64) : StackFill := (fill.word type).word val

/-- An entry that is not found fails the assertion. -/
def copyAux (ref : List Auxv) (fill : StackFill) (type : BitVec 64) : Option StackFill :=
  (findAuxEntry ref type).map fun found => fill.entry type found.aVal

def setupAux (ref : List Auxv) (fill : StackFill) (data : ElfData) : Option StackFill := do
  let fill ← copyAux ref fill atHwcap
  let fill ← copyAux ref fill atPagesz
  let fill ← copyAux ref fill atClktck
  let fill := fill.entry atPhdr data.phdr
  let fill := fill.entry atPhnum (data.phnum.signExtend 64)
  let fill ← copyAux ref fill atFlags
  let fill := fill.entry atEntry data.entry
  let fill ← copyAux ref fill atUid
  let fill ← copyAux ref fill atEuid
  let fill ← copyAux ref fill atGid
  let fill ← copyAux ref fill atEgid
  let fill := fill.entry atSecure 0
  let fill := fill.entry atRandom data.phdr
  return fill.word atNull

/-- `setup_arguments`, where the auxiliary vector follows the environment. There is no result
when the counts overflow an `int`, and none when the first store misses the stack. -/
def setupArguments (top : StackTop) (path : CString) (argv envv : List CString) (aux : List Auxv)
    (data : ElfData) (mem : Memory) : Option (Nat × Memory) :=
  let (argc, argLen) := countArgs argv
  let (envc, envLen) := countArgs envv
  let len := argLen + envLen + BitVec.ofNat 64 path.size
  let dataPtr := top.sp - len.toNat
  let len := len + BitVec.ofNat 64 (16 * numAux)
  if 2 ^ 31 ≤ argc + envc + 4 then none
  else
    let len := len + BitVec.ofNat 64 ((argc + envc + 4) * 8)
    let len := (len + 0x1f) &&& ~~~ 0x1f
    if stackMapped < len.toNat then none
    else
      let fill : StackFill := ⟨mem, top.sp - len.toNat, dataPtr⟩
      let fill := fill.word (BitVec.ofNat 64 (argc + 1))
      let fill := (path :: argv).foldl .string fill
      let fill := fill.word 0
      let fill := envv.foldl .string fill
      let fill := fill.word 0
      (setupAux aux fill data).map fun fill => (top.sp - len.toNat, fill.mem)

/-- The strings of a list, one right after the other. -/
def Contiguous (argv : List CString) : Prop := argv.IsChain fun string next => next.addr = string.addr + string.size

def copiedTypes : List (BitVec 64) :=
  [atHwcap, atPagesz, atClktck, atFlags, atUid, atEuid, atGid, atEgid]

/-- The vector for the program: the copied entries as they were, and the program's own. -/
structure AuxRight (ref aux : List Auxv) (data : ElfData) : Prop where
  types : aux.map Auxv.aType = [atHwcap, atPagesz, atClktck, atPhdr, atPhnum, atFlags, atEntry, atUid,
    atEuid, atGid, atEgid, atSecure, atRandom]
  copied : ∀ type ∈ copiedTypes, findAuxEntry aux type = findAuxEntry ref type
  phdr : findAuxEntry aux atPhdr = some ⟨atPhdr, data.phdr⟩
  phnum : findAuxEntry aux atPhnum = some ⟨atPhnum, data.phnum.signExtend 64⟩
  entry : findAuxEntry aux atEntry = some ⟨atEntry, data.entry⟩

def auxWords (aux : List Auxv) : List (BitVec 64) := aux.flatMap fun aux => [aux.aType, aux.aVal]

/-- The words of the stack from its address upwards. The terminator of the vector has no value. -/
def stackWords (args envs : List VirtAddr) (aux : List Auxv) : List (BitVec 64) :=
  BitVec.ofNat 64 args.length :: args ++ 0 :: envs ++ 0 :: auxWords aux ++ [atNull]

/-- What the program finds on the stack at `start`. -/
structure StackRight (top : StackTop) (path : CString) (argv envv : List CString) (ref : List Auxv)
    (data : ElfData) (mem after : Memory) (start : Nat) : Prop where
  below : start < top.sp
  aligned : 32 ∣ top.sp - start
  found : ∃ args envs aux,
    AuxRight ref aux data ∧ Holds after start (wordsBytes (stackWords args envs aux)) ∧
      List.Forall₂ (fun ptr string => Holds after ptr.toNat string.stored ∧
        start + 8 * (stackWords args envs aux).length ≤ ptr.toNat)
          (args ++ envs) (path :: argv ++ envv) ∧ args.length = argv.length + 1
  frame : ∀ addr, addr < start ∨ top.sp ≤ addr → after addr = mem addr

/-- `setup_arguments` returns, and the stack is laid out correctly. -/
def LaidOut (top : StackTop) (path : CString) (argv envv : List CString) (aux : List Auxv)
    (data : ElfData) (mem : Memory) : Prop :=
  ∃ start after, setupArguments top path argv envv aux data mem = some (start, after) ∧
    StackRight top path argv envv aux data mem after start

/-! The length of the layout. -/

def stringsSize (strings : List CString) : Nat := (strings.map CString.size).sum

def stackLen (path : CString) (argv envv : List CString) : Nat :=
  stringsSize (path :: argv ++ envv) + 16 * numAux + (argv.length + envv.length + 4) * 8

section Length

variable {path : CString} {argv envv : List CString}

theorem stringsSize_append (strings more : List CString) :
    stringsSize (strings ++ more) = stringsSize strings + stringsSize more := by
  simp only [stringsSize, List.map_append, List.sum_append]

theorem stringsSize_cons (string : CString) (strings : List CString) :
    stringsSize (string :: strings) = string.size + stringsSize strings := by
  simp only [stringsSize, List.map_cons, List.sum_cons]

/-- The end of the last string of a list. -/
theorem contiguous_end {first : CString} {rest : List CString} (stored : Contiguous (first :: rest)) :
    (rest.getLastD first).addr + (rest.getLastD first).size = first.addr + stringsSize (first :: rest) := by
  induction rest generalizing first with
  | nil => rfl
  | cons second rest ih =>
      obtain ⟨next, later⟩ := List.isChain_cons_cons.mp stored
      rw [List.getLastD_cons, ih later, next, stringsSize_cons first]
      omega

theorem contiguous_bound (stored : Contiguous argv) : stringsSize argv ≤ 2 ^ 47 := by
  cases argv with
  | nil => exact Nat.zero_le _
  | cons first rest =>
      have last := contiguous_end stored
      have inSpace := (rest.getLastD first).inSpace
      rw [CString.size] at last
      omega

theorem countArgs_contiguous (stored : Contiguous argv) :
    countArgs argv = (argv.length, BitVec.ofNat 64 (stringsSize argv)) := by
  cases argv with
  | nil => rfl
  | cons first rest =>
      have last := contiguous_end stored
      rw [CString.size, ← Nat.add_assoc] at last
      have words := congrArg (BitVec.ofNat 64) last
      rw [BitVec.ofNat_add _ 1, BitVec.ofNat_add first.addr] at words
      rw [countArgs, List.length_cons, Prod.mk.injEq]
      refine ⟨rfl, ?_⟩
      calc BitVec.ofNat 64 ((rest.getLastD first).addr + (rest.getLastD first).bytes.length) -
              BitVec.ofNat 64 first.addr + 1
          = BitVec.ofNat 64 ((rest.getLastD first).addr + (rest.getLastD first).bytes.length) + 1 -
              BitVec.ofNat 64 first.addr := sub_add_eq_add_sub _ _ _
        _ = BitVec.ofNat 64 first.addr + BitVec.ofNat 64 (stringsSize (first :: rest)) -
              BitVec.ofNat 64 first.addr := congrArg (· - BitVec.ofNat 64 first.addr) words
        _ = BitVec.ofNat 64 (stringsSize (first :: rest)) := add_sub_cancel_left _ _

theorem round32_toNat (len : Size) (bound : len.toNat < 2 ^ 63) :
    ((len + 0x1f) &&& ~~~ (0x1f : Size)).toNat = (len.toNat + 31) / 32 * 32 := by
  have masked := fieldMask_and (len + 0x1f).toNat 59 5
  have sum : (len + 0x1f).toNat = len.toNat + 31 := BitVec.toNat_add_of_lt (by
    have offset : (0x1f : Size).toNat = 31 := rfl
    omega)
  have mask : (~~~ (0x1f : Size)).toNat = (2 ^ 59 - 1) * 2 ^ 5 := by decide
  rw [BitVec.toNat_and, mask, masked, sum]
  omega

end Length

/-! The words and the strings as they are stored. -/

def stringsBytes (strings : List CString) : List (BitVec 8) := strings.flatMap CString.stored

@[grind =] def pointersFrom : Nat → List CString → List VirtAddr
  | _, [] => []
  | dataPtr, string :: rest => BitVec.ofNat 64 dataPtr :: pointersFrom (dataPtr + string.size) rest

/-- The words upwards from `low` and the bytes of the strings upwards from `high`. -/
structure Filled (mem : Memory) (low high : Nat) (fill : StackFill) (words : List (BitVec 64))
    (strings : List (BitVec 8)) : Prop where
  argPtr : fill.argPtr = low + 8 * words.length
  dataPtr : fill.dataPtr = high + strings.length
  wordsHeld : Holds fill.mem low (wordsBytes words)
  stringsHeld : Holds fill.mem high strings
  frame : ∀ addr, addr < low ∨ low + 8 * words.length ≤ addr →
    addr < high ∨ high + strings.length ≤ addr → fill.mem addr = mem addr

section Fill

variable {mem : Memory} {low high : Nat} {fill : StackFill} {words : List (BitVec 64)}
  {strings : List (BitVec 8)}

theorem stored_length (string : CString) : string.stored.length = string.size := by
  rw [CString.stored, List.length_append, List.length_singleton, CString.size]

theorem stringsBytes_length (strings : List CString) :
    (stringsBytes strings).length = stringsSize strings := by
  induction strings with
  | nil => rfl
  | cons string strings ih =>
      rw [stringsBytes, List.flatMap_cons, List.length_append, stored_length, ← stringsBytes, ih,
        stringsSize_cons]

theorem stringsBytes_append (strings more : List CString) :
    stringsBytes strings ++ stringsBytes more = stringsBytes (strings ++ more) :=
  List.flatMap_append.symm

theorem pointersFrom_length (dataPtr : Nat) (strings : List CString) :
    (pointersFrom dataPtr strings).length = strings.length := by
  induction strings generalizing dataPtr with
  | nil => rfl
  | cons string strings ih => rw [pointersFrom, List.length_cons, ih, List.length_cons]

theorem pointersFrom_append (dataPtr : Nat) (strings more : List CString) :
    pointersFrom dataPtr (strings ++ more) =
      pointersFrom dataPtr strings ++ pointersFrom (dataPtr + stringsSize strings) more := by
  induction strings generalizing dataPtr with
  | nil => rfl
  | cons string strings ih =>
      rw [List.cons_append, pointersFrom, ih, pointersFrom, stringsSize_cons, Nat.add_assoc,
        List.cons_append]

theorem pointersFrom_holds {start : Nat} (more : List CString) (held : Holds mem start (stringsBytes more))
    (above : low ≤ start) (inSpace : start + stringsSize more < 2 ^ 64) :
    List.Forall₂ (fun ptr string => Holds mem ptr.toNat string.stored ∧ low ≤ ptr.toNat)
      (pointersFrom start more) more := by
  induction more generalizing start with
  | nil => exact .nil
  | cons string more ih =>
      rw [stringsSize_cons] at inSpace
      rw [stringsBytes, List.flatMap_cons, holds_append, stored_length] at held
      have ptr : (BitVec.ofNat 64 start).toNat = start := Nat.mod_eq_of_lt (by omega)
      rw [pointersFrom]
      refine .cons ?_ (ih held.2 (by omega) (by omega))
      rw [ptr]
      exact ⟨held.1, above⟩

theorem Filled.word (filled : Filled mem low high fill words strings)
    (room : low + 8 * (words.length + 1) ≤ high) (word : BitVec 64) :
    Filled mem low high (fill.word word) (words ++ [word]) strings where
  argPtr := by
    have argPtr := filled.argPtr
    rw [List.length_append, List.length_singleton]
    dsimp only [StackFill.word]
    omega
  dataPtr := filled.dataPtr
  wordsHeld := by
    rw [wordsBytes_append, wordsBytes_singleton, holds_append, wordsBytes_length]
    refine ⟨filled.wordsHeld.store ?_, ?_⟩
    · rw [wordsBytes_length, filled.argPtr]
      exact .inl (Nat.le_refl _)
    · rw [← filled.argPtr]
      exact store_holds
  stringsHeld := filled.stringsHeld.store (.inr (by rw [filled.argPtr, wordBytes_length]; omega))
  frame := fun addr apart outside => by
    rw [List.length_append, List.length_singleton] at apart
    have missed : addr < fill.argPtr ∨ fill.argPtr + (wordBytes word).length ≤ addr := by
      rw [filled.argPtr, wordBytes_length]
      omega
    exact (store_frame missed).trans (filled.frame addr (by omega) outside)

theorem Filled.pushWords (filled : Filled mem low high fill words strings) (more : List (BitVec 64))
    (room : low + 8 * (words.length + more.length) ≤ high) :
    Filled mem low high (more.foldl .word fill) (words ++ more) strings := by
  induction more generalizing fill words with
  | nil =>
      rw [List.append_nil]
      exact filled
  | cons word more ih =>
      rw [List.length_cons] at room
      have stored := filled.word (by omega) word
      have rest := ih stored (by rw [List.length_append, List.length_singleton]; omega)
      rwa [List.append_assoc] at rest

theorem Filled.string (filled : Filled mem low high fill words strings)
    (room : low + 8 * (words.length + 1) ≤ high) (string : CString) :
    Filled mem low high (fill.string string) (words ++ [BitVec.ofNat 64 (high + strings.length)])
      (strings ++ string.stored) := by
  have pointed := filled.word room (BitVec.ofNat 64 fill.dataPtr)
  rw [filled.dataPtr] at pointed
  have length : (strings ++ string.stored).length = strings.length + string.size := by
    rw [List.length_append, stored_length]
  rw [StackFill.string, filled.dataPtr]
  refine ⟨pointed.argPtr, ?_, ?_, ?_, fun addr apart outside => ?_⟩
  · rw [length, Nat.add_assoc]
  · refine pointed.wordsHeld.store (.inl ?_)
    rw [wordsBytes_length, List.length_append, List.length_singleton]
    omega
  · refine holds_append.mpr ⟨pointed.stringsHeld.store (.inl (Nat.le_refl _)), store_holds⟩
  · rw [length] at outside
    have missed : addr < high + strings.length ∨
        high + strings.length + string.stored.length ≤ addr := by
      rw [stored_length]
      omega
    exact (store_frame missed).trans (pointed.frame addr apart (by omega))

theorem Filled.pushStrings (filled : Filled mem low high fill words strings) (more : List CString)
    (room : low + 8 * (words.length + more.length) ≤ high) :
    Filled mem low high (more.foldl .string fill)
      (words ++ pointersFrom (high + strings.length) more) (strings ++ stringsBytes more) := by
  induction more generalizing fill words strings with
  | nil =>
      rw [pointersFrom, List.append_nil, stringsBytes, List.flatMap_nil, List.append_nil]
      exact filled
  | cons string more ih =>
      rw [List.length_cons] at room
      have stored := filled.string (by omega) string
      have rest := ih stored (by rw [List.length_append, List.length_singleton]; omega)
      rwa [List.append_assoc, List.append_assoc, List.length_append, stored_length, ← Nat.add_assoc] at rest

end Fill

/-! The auxiliary vector. -/

section Aux

variable {ref : List Auxv} {data : ElfData}

theorem findAuxEntry_type {type : BitVec 64} {found : Auxv}
    (entry : findAuxEntry ref type = some found) : found.aType = type := by
  induction ref with
  | nil => exact nomatch entry
  | cons aux rest ih =>
      rw [findAuxEntry] at entry
      split at entry
      · exact nomatch entry
      split at entry
      · rename_i same
        exact Option.some.inj entry ▸ same
      · exact ih entry

theorem setupAux_found (entries : ∀ type ∈ copiedTypes, (findAuxEntry ref type).isSome)
    (data : ElfData) : ∃ aux, AuxRight ref aux data ∧
      ∀ fill, setupAux ref fill data = some (((auxWords aux).foldl .word fill).word atNull) := by
  have found (type : BitVec 64) (copied : type ∈ copiedTypes) :
      ∃ val, findAuxEntry ref type = some ⟨type, val⟩ := by
    obtain ⟨⟨aType, aVal⟩, entry⟩ := Option.isSome_iff_exists.mp (entries type copied)
    obtain rfl : aType = type := findAuxEntry_type entry
    exact ⟨aVal, entry⟩
  obtain ⟨hwcap, hwcapFound⟩ := found atHwcap (by decide)
  obtain ⟨pagesz, pageszFound⟩ := found atPagesz (by decide)
  obtain ⟨clktck, clktckFound⟩ := found atClktck (by decide)
  obtain ⟨flags, flagsFound⟩ := found atFlags (by decide)
  obtain ⟨uid, uidFound⟩ := found atUid (by decide)
  obtain ⟨euid, euidFound⟩ := found atEuid (by decide)
  obtain ⟨gid, gidFound⟩ := found atGid (by decide)
  obtain ⟨egid, egidFound⟩ := found atEgid (by decide)
  refine ⟨[⟨atHwcap, hwcap⟩, ⟨atPagesz, pagesz⟩, ⟨atClktck, clktck⟩, ⟨atPhdr, data.phdr⟩,
    ⟨atPhnum, data.phnum.signExtend 64⟩, ⟨atFlags, flags⟩, ⟨atEntry, data.entry⟩, ⟨atUid, uid⟩,
    ⟨atEuid, euid⟩, ⟨atGid, gid⟩, ⟨atEgid, egid⟩, ⟨atSecure, 0⟩, ⟨atRandom, data.phdr⟩],
    ⟨rfl, ?_, rfl, rfl, rfl⟩, fun fill => ?_⟩
  · simp only [copiedTypes, List.forall_mem_cons, hwcapFound, pageszFound, clktckFound, flagsFound, uidFound,
      euidFound, gidFound, egidFound]
    exact ⟨rfl, rfl, rfl, rfl, rfl, rfl, rfl, rfl, nofun⟩
  · simp only [setupAux, copyAux, hwcapFound, pageszFound, clktckFound, flagsFound, uidFound, euidFound,
      gidFound, egidFound]
    rfl

theorem auxWords_length {aux : List Auxv} (right : AuxRight ref aux data) :
    (auxWords aux).length = 2 * numAux := by
  have count := congrArg List.length right.types
  rw [List.length_map] at count
  have sum (entries : List Auxv) : (auxWords entries).length = 2 * entries.length := by
    induction entries with
    | nil => rfl
    | cons entry entries ih =>
        rw [auxWords, List.flatMap_cons, List.length_append, ← auxWords, ih, List.length_cons]
        simp only [List.length_cons, List.length_nil]
        omega
  rw [sum, count]
  rfl

end Aux

/-! The whole layout. -/

section Layout

variable {top : StackTop} {path : CString} {argv envv : List CString} {ref : List Auxv} {data : ElfData}
  {mem : Memory}

/-- The words before the terminator of the vector. -/
def wordsBefore (high : Nat) (path : CString) (argv envv : List CString) (aux : List Auxv) :
    List (BitVec 64) :=
  BitVec.ofNat 64 (argv.length + 1) :: pointersFrom high (path :: argv) ++
    0 :: pointersFrom (high + stringsSize (path :: argv)) envv ++ 0 :: auxWords aux

theorem wordsBefore_length {aux : List Auxv} (right : AuxRight ref aux data) (high : Nat) :
    (wordsBefore high path argv envv aux).length = argv.length + envv.length + 4 + 2 * numAux := by
  simp only [wordsBefore, List.length_append, List.length_cons, pointersFrom_length, auxWords_length right]
  omega

/-- The start of the layout, and the start of its strings. -/
def stackStart (top : StackTop) (path : CString) (argv envv : List CString) : Nat :=
  top.sp - (stackLen path argv envv + 31) / 32 * 32

def stringsStart (top : StackTop) (path : CString) (argv envv : List CString) : Nat :=
  top.sp - stringsSize (path :: argv ++ envv)

/-- What is stored before the auxiliary vector. -/
def fillBefore (top : StackTop) (path : CString) (argv envv : List CString) (mem : Memory) : StackFill :=
  let fill : StackFill := ⟨mem, stackStart top path argv envv, stringsStart top path argv envv⟩
  let fill := (path :: argv).foldl .string (fill.word (BitVec.ofNat 64 (argv.length + 1)))
  (envv.foldl .string (fill.word 0)).word 0

theorem setupArguments_eq (argvStored : Contiguous argv) (envvStored : Contiguous envv) :
    setupArguments top path argv envv ref data mem =
      if 2 ^ 31 ≤ argv.length + envv.length + 4 then none
      else if stackMapped < (stackLen path argv envv + 31) / 32 * 32 then none
      else (setupAux ref (fillBefore top path argv envv mem) data).map fun fill =>
        (stackStart top path argv envv, fill.mem) := by
  have argvBound := contiguous_bound argvStored
  have envvBound := contiguous_bound envvStored
  have pathBound := path.inSpace
  have pathSize : path.size = path.bytes.length + 1 := rfl
  have sizes : stringsSize argv + stringsSize envv + path.size = stringsSize (path :: argv ++ envv) := by
    rw [stringsSize_append, stringsSize_cons]
    omega
  have stringsNat : (BitVec.ofNat 64 (stringsSize (path :: argv ++ envv))).toNat =
      stringsSize (path :: argv ++ envv) := Nat.mod_eq_of_lt (by omega)
  simp only [setupArguments, countArgs_contiguous argvStored, countArgs_contiguous envvStored,
    ← BitVec.ofNat_add, sizes, stringsNat]
  split
  · rfl
  rename_i counts
  have total : (BitVec.ofNat 64 (stringsSize (path :: argv ++ envv) + 16 * numAux +
      (argv.length + envv.length + 4) * 8)).toNat = stackLen path argv envv := by
    rw [stackLen, BitVec.toNat_ofNat, numAux]
    omega
  have bound : stackLen path argv envv < 2 ^ 63 := by
    rw [stackLen, numAux]
    omega
  rw [round32_toNat _ (total ▸ bound), total]
  rfl

/-- The length counts the strings and the words but the terminator, and a length that fits,
rounded up, leaves the layout inside the stack. -/
theorem stack_fits (top : StackTop) (fits : stackLen path argv envv ≤ stackMapped) :
    stackLen path argv envv =
        stringsSize (path :: argv ++ envv) + 8 * (argv.length + envv.length + 4 + 2 * numAux) ∧
      (stackLen path argv envv + 31) / 32 * 32 ≤ top.sp := by
  have stackRoom := top.room
  have mapped : stackMapped = appStackSize.toNat - 0x1000 := rfl
  have stackSize : appStackSize.toNat = 0x800000 := rfl
  refine ⟨?_, by omega⟩
  rw [stackLen]
  omega

theorem fillBefore_filled (top : StackTop) (mem : Memory) (fits : stackLen path argv envv ≤ stackMapped)
    {aux : List Auxv} (right : AuxRight ref aux data) :
    Filled mem (stackStart top path argv envv) (stringsStart top path argv envv)
      ((auxWords aux).foldl .word (fillBefore top path argv envv mem))
      (wordsBefore (stringsStart top path argv envv) path argv envv aux)
      (stringsBytes (path :: argv ++ envv)) := by
  have total : (wordsBefore (stringsStart top path argv envv) path argv envv aux).length =
      argv.length + envv.length + 4 + 2 * numAux := wordsBefore_length right _
  have room : stackStart top path argv envv + 8 * (argv.length + envv.length + 4 + 2 * numAux) ≤
      stringsStart top path argv envv := by
    obtain ⟨len, inside⟩ := stack_fits top fits
    rw [stackStart, stringsStart]
    omega
  have auxLen := auxWords_length right
  have empty : Filled mem (stackStart top path argv envv) (stringsStart top path argv envv)
      ⟨mem, stackStart top path argv envv, stringsStart top path argv envv⟩ [] [] :=
    ⟨rfl, rfl, nofun, nofun, fun _ _ _ => rfl⟩
  have counted := empty.word (by rw [List.length_nil]; omega) (BitVec.ofNat 64 (argv.length + 1))
  have args := counted.pushStrings (path :: argv) (by
    simp only [List.length_append, List.length_cons, List.length_nil]
    omega)
  have argsEnd := args.word (by
    simp only [List.length_append, List.length_cons, List.length_nil, pointersFrom_length]
    omega) 0
  have envs := argsEnd.pushStrings envv (by
    simp only [List.length_append, List.length_cons, List.length_nil, pointersFrom_length]
    omega)
  have envsEnd := envs.word (by
    simp only [List.length_append, List.length_cons, List.length_nil, pointersFrom_length]
    omega) 0
  have all := envsEnd.pushWords (auxWords aux) (by
    simp only [List.length_append, List.length_cons, List.length_nil, pointersFrom_length]
    omega)
  simp only [List.nil_append, List.length_nil, Nat.add_zero, stringsBytes_length, stringsBytes_append] at all
  simp only [wordsBefore, List.append_assoc, List.cons_append, List.nil_append] at all ⊢
  exact all

/-- The space between the words and the strings, less the terminator of the vector. -/
theorem stack_slack (top : StackTop) (fits : stackLen path argv envv ≤ stackMapped) :
    stackStart top path argv envv + 8 * (argv.length + envv.length + 4 + 2 * numAux + 1) ≤
        stringsStart top path argv envv ↔
      1 ≤ stackLen path argv envv % 32 ∧ stackLen path argv envv % 32 ≤ 24 := by
  obtain ⟨len, inside⟩ := stack_fits top fits
  rw [stackStart, stringsStart]
  omega

theorem stack_space (top : StackTop) (fits : stackLen path argv envv ≤ stackMapped) :
    stringsStart top path argv envv + stringsSize (path :: argv ++ envv) = top.sp ∧
      stackStart top path argv envv < top.sp ∧ 32 ∣ top.sp - stackStart top path argv envv ∧
      stackStart top path argv envv ≤ stringsStart top path argv envv := by
  obtain ⟨len, inside⟩ := stack_fits top fits
  rw [stackStart, stringsStart]
  omega

variable {fill : StackFill} {aux : List Auxv}

theorem stackWords_eq (high : Nat) :
    stackWords (pointersFrom high (path :: argv))
        (pointersFrom (high + stringsSize (path :: argv)) envv) aux =
      wordsBefore high path argv envv aux ++ [atNull] := by
  simp only [stackWords, wordsBefore, pointersFrom_length, List.length_cons]

/-- With room for the terminator the stack is right. -/
theorem Filled.right (fits : stackLen path argv envv ≤ stackMapped) (auxRight : AuxRight ref aux data)
    (filled : Filled mem (stackStart top path argv envv) (stringsStart top path argv envv) fill
      (wordsBefore (stringsStart top path argv envv) path argv envv aux)
      (stringsBytes (path :: argv ++ envv)))
    (room : stackStart top path argv envv + 8 * (argv.length + envv.length + 4 + 2 * numAux + 1) ≤
      stringsStart top path argv envv) :
    StackRight top path argv envv ref data mem (fill.word atNull).mem (stackStart top path argv envv) := by
  obtain ⟨stringsEnd, below, aligned, order⟩ := stack_space top fits
  have total : (wordsBefore (stringsStart top path argv envv) path argv envv aux).length =
      argv.length + envv.length + 4 + 2 * numAux := wordsBefore_length auxRight _
  have terminated := filled.word (by rw [total]; exact room) atNull
  rw [← stackWords_eq] at terminated
  have wordsLen : (stackWords (pointersFrom (stringsStart top path argv envv) (path :: argv))
      (pointersFrom (stringsStart top path argv envv + stringsSize (path :: argv)) envv) aux).length =
        argv.length + envv.length + 4 + 2 * numAux + 1 := by
    rw [stackWords_eq, List.length_append, total, List.length_singleton]
  refine ⟨below, aligned, ⟨_, _, aux, auxRight, terminated.wordsHeld, ?_, ?_⟩, fun addr outside => ?_⟩
  · rw [← pointersFrom_append, wordsLen]
    have inSpace := top.inSpace
    exact pointersFrom_holds _ terminated.stringsHeld room (by omega)
  · rw [pointersFrom_length, List.length_cons]
  · refine terminated.frame addr ?_ ?_
    · rw [wordsLen]
      omega
    · rw [stringsBytes_length]
      omega

/-- Without it the terminator meets the strings. -/
theorem Filled.overlaps
    (filled : Filled mem (stackStart top path argv envv) (stringsStart top path argv envv) fill
      (wordsBefore (stringsStart top path argv envv) path argv envv aux)
      (stringsBytes (path :: argv ++ envv)))
    (right : StackRight top path argv envv ref data mem (fill.word atNull).mem
      (stackStart top path argv envv)) :
    stackStart top path argv envv + 8 * (argv.length + envv.length + 4 + 2 * numAux + 1) ≤
      stringsStart top path argv envv := by
  obtain ⟨args, envs, other, otherRight, held, pointed, argsLen⟩ := right.found
  have inSpace := top.inSpace
  have kept : Holds (fill.word atNull).mem (stackStart top path argv envv)
      (wordsBytes (wordsBefore (stringsStart top path argv envv) path argv envv aux)) := by
    refine filled.wordsHeld.store (.inl ?_)
    rw [wordsBytes_length, filled.argPtr]
  have pointers := pointed.length_eq
  cases args with
  | nil => exact nomatch argsLen
  | cons first args =>
      -- The second word points to the path, whatever the terminator overwrites.
      have wordsLen : (stackWords (first :: args) envs other).length =
          argv.length + envv.length + 4 + 2 * numAux + 1 := by
        have auxLen := auxWords_length otherRight
        simp only [stackWords, List.length_append, List.length_cons, List.length_nil] at pointers argsLen ⊢
        omega
      have stored := (holds_words_cons.mp (holds_words_cons.mp kept).2).1
      have read := (holds_words_cons.mp (holds_words_cons.mp held).2).1
      have same := wordBytes_injective (read.unique stored rfl)
      have apart := (List.forall₂_cons.mp pointed).1.2
      rw [wordsLen, same, BitVec.toNat_ofNat, Nat.mod_eq_of_lt] at apart
      · exact apart
      · rw [stringsStart]
        omega

/-- A layout that is right fits an `int` and the stack, with the terminator of the vector. -/
theorem LaidOut.fits (argvStored : Contiguous argv) (envvStored : Contiguous envv)
    (entries : ∀ type ∈ copiedTypes, (findAuxEntry ref type).isSome)
    (laidOut : LaidOut top path argv envv ref data mem) :
    argv.length + envv.length + 4 < 2 ^ 31 ∧ stackLen path argv envv ≤ stackMapped ∧
      1 ≤ stackLen path argv envv % 32 ∧ stackLen path argv envv % 32 ≤ 24 := by
  obtain ⟨aux, auxRight, stored⟩ := setupAux_found entries data
  obtain ⟨start, after, returned, right⟩ := laidOut
  rw [setupArguments_eq argvStored envvStored, stored] at returned
  split at returned
  · exact nomatch returned
  split at returned
  · exact nomatch returned
  rename_i counts long
  have fits : stackLen path argv envv ≤ stackMapped := by omega
  obtain ⟨rfl, rfl⟩ := Prod.mk.inj (Option.some.inj returned)
  have filled := fillBefore_filled top mem fits auxRight
  exact ⟨Nat.lt_of_not_le counts, fits, (stack_slack top fits).mp (filled.overlaps right)⟩

/-- The layout is right exactly when it fits an `int` and the stack, and rounding its length up
to 32 leaves the 8 bytes that the terminator of the vector takes. -/
theorem stack_laid_out_iff (argvStored : Contiguous argv) (envvStored : Contiguous envv)
    (entries : ∀ type ∈ copiedTypes, (findAuxEntry ref type).isSome) :
    LaidOut top path argv envv ref data mem ↔
      argv.length + envv.length + 4 < 2 ^ 31 ∧ stackLen path argv envv ≤ stackMapped ∧
        1 ≤ stackLen path argv envv % 32 ∧ stackLen path argv envv % 32 ≤ 24 := by
  refine ⟨LaidOut.fits argvStored envvStored entries, fun ⟨counts, fits, slack⟩ => ?_⟩
  obtain ⟨aux, auxRight, stored⟩ := setupAux_found entries data
  have room := (stack_slack top fits).mpr slack
  have filled := fillBefore_filled top mem fits auxRight
  have short : ¬ stackMapped < (stackLen path argv envv + 31) / 32 * 32 := by
    have mapped : stackMapped = 0x7ff000 := rfl
    omega
  refine ⟨_, _, ?_, filled.right fits auxRight room⟩
  rw [setupArguments_eq argvStored envvStored, stored, if_neg (Nat.not_le.mpr counts), if_neg short]
  rfl

end Layout

/-- `/bin/ls`, `-l`, `A=1` and `/bin/true`, as the kernel leaves them. -/
def lsPath : CString := ⟨0x7ffe0000, [0x2f, 0x62, 0x69, 0x6e, 0x2f, 0x6c, 0x73], by decide, by decide⟩

def longFlag : CString := ⟨0x7ffe0008, [0x2d, 0x6c], by decide, by decide⟩

def setting : CString := ⟨0x7ffe000b, [0x41, 0x3d, 0x31], by decide, by decide⟩

def truePath : CString :=
  ⟨0x7ffe0000, [0x2f, 0x62, 0x69, 0x6e, 0x2f, 0x74, 0x72, 0x75, 0x65], by decide, by decide⟩

def hostAux : List Auxv :=
  [⟨atHwcap, 0xbfebfbff⟩, ⟨atPagesz, 4096⟩, ⟨atClktck, 100⟩, ⟨atFlags, 0⟩, ⟨atUid, 1000⟩, ⟨atEuid, 1000⟩,
    ⟨atGid, 1000⟩, ⟨atEgid, 1000⟩, ⟨atNull, 0⟩]

def loadedElf : ElfData := ⟨0x400400, 0x400040, 9⟩

def firstStack : StackTop := ⟨0x700000000, by decide, by decide⟩

theorem hostAux_entries : ∀ type ∈ copiedTypes, (findAuxEntry hostAux type).isSome := by
  simp only [copiedTypes, List.forall_mem_cons]
  exact ⟨rfl, rfl, rfl, rfl, rfl, rfl, rfl, rfl, nofun⟩

theorem stack_laid_out_ls :
    LaidOut firstStack lsPath [longFlag] [setting] hostAux loadedElf fun _ => 0 :=
  (stack_laid_out_iff (.singleton _) (.singleton _) hostAux_entries).mpr (by decide +kernel)

/-- With `/bin/true` alone the layout is 250 bytes long, and 6 are left. -/
theorem true_stack_overlaps : ¬ LaidOut firstStack truePath [] [] hostAux loadedElf fun _ => 0 := by
  intro laidOut
  have slack := (laidOut.fits .nil .nil hostAux_entries).2.2.2
  exact absurd slack (by decide)

end RdmaPaging
