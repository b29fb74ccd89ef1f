import Mathlib.Data.List.GetD
import Mathlib.Logic.Function.Basic

/-!
Memory as a map from addresses to bytes: what a store leaves, and words of eight bytes
with the lowest first.
-/

namespace ByteMemory

abbrev Memory := Nat → BitVec 8

def store (mem : Memory) (start : Nat) (bytes : List (BitVec 8)) : Memory := fun addr =>
  if start ≤ addr then bytes.getD (addr - start) (mem addr) else mem addr

/-- The bytes stand one after the other from an address on. -/
def Holds (mem : Memory) (start : Nat) (bytes : List (BitVec 8)) : Prop :=
  ∀ (index : Nat) (inside : index < bytes.length), mem (start + index) = bytes[index]

section Store

variable {mem : Memory} {start addr other : Nat} {bytes more : List (BitVec 8)}

theorem store_frame (outside : addr < start ∨ start + bytes.length ≤ addr) :
    store mem start bytes addr = mem addr := by
  rw [store]
  split
  · exact List.getD_eq_default _ _ (by omega)
  · rfl

theorem store_holds : Holds (store mem start bytes) start bytes := by
  intro index inside
  rw [store, if_pos (Nat.le_add_right _ _), Nat.add_sub_cancel_left, List.getD_eq_getElem _ _ inside]

theorem Holds.congr {after : Memory} (held : Holds mem start bytes)
    (same : ∀ addr, start ≤ addr → addr < start + bytes.length → after addr = mem addr) :
    Holds after start bytes := by
  intro index inside
  rw [same _ (Nat.le_add_right _ _) (by omega)]
  exact held index inside

theorem Holds.store (held : Holds mem start bytes)
    (apart : start + bytes.length ≤ other ∨ other + more.length ≤ start) :
    Holds (store mem other more) start bytes :=
  held.congr fun addr first last => store_frame (by omega)

theorem Holds.update (held : Holds mem start bytes) (byte : BitVec 8)
    (apart : other < start ∨ start + bytes.length ≤ other) :
    Holds (Function.update mem other byte) start bytes :=
  held.congr fun addr first last => Function.update_of_ne (by omega) _ _

theorem holds_append :
    Holds mem start (bytes ++ more) ↔ Holds mem start bytes ∧ Holds mem (start + bytes.length) more := by
  constructor
  · intro held
    refine ⟨fun index inside => ?_, fun index inside => ?_⟩
    · rw [held index (by rw [List.length_append]; omega), List.getElem_append_left inside]
    · have shifted := held (bytes.length + index) (by rw [List.length_append]; omega)
      rw [Nat.add_assoc, shifted, List.getElem_append_right (Nat.le_add_right _ _)]
      simp only [Nat.add_sub_cancel_left]
  · rintro ⟨first, second⟩ index inside
    rw [List.length_append] at inside
    by_cases early : index < bytes.length
    · rw [List.getElem_append_left early]
      exact first index early
    · have shifted := second (index - bytes.length) (by omega)
      rw [List.getElem_append_right (Nat.le_of_not_lt early), ← shifted]
      congr 1
      omega

theorem holds_cons {byte : BitVec 8} :
    Holds mem start (byte :: bytes) ↔ mem start = byte ∧ Holds mem (start + 1) bytes := by
  have single : Holds mem start [byte] ↔ mem start = byte :=
    ⟨fun held => held 0 Nat.one_pos, fun same index inside => by
      obtain rfl := Nat.lt_one_iff.mp inside
      exact same⟩
  rw [← List.singleton_append, holds_append, single]
  rfl

/-- Two lists of one length that stand at one address are equal. -/
theorem Holds.unique (held : Holds mem start bytes) (also : Holds mem start more)
    (same : bytes.length = more.length) : bytes = more := by
  refine List.ext_getElem same fun index inside insideMore => ?_
  rw [← held index inside, ← also index insideMore]

end Store

/-! Words. -/

def wordBytes (word : BitVec 64) : List (BitVec 8) :=
  (List.range 8).map fun index => word.extractLsb' (8 * index) 8

theorem wordBytes_length (word : BitVec 64) : (wordBytes word).length = 8 := rfl

theorem wordBytes_injective {word other : BitVec 64} (same : wordBytes word = wordBytes other) :
    word = other := by
  refine BitVec.eq_of_getLsbD_eq fun bit inRange => ?_
  have byte := congrArg (·[bit / 8]?) same
  simp only [wordBytes, List.getElem?_map, List.getElem?_range (show bit / 8 < 8 by omega),
    Option.map_some, Option.some.injEq] at byte
  have read := congrArg (·.getLsbD (bit % 8)) byte
  simp only [BitVec.getLsbD_extractLsb', show bit % 8 < 8 by omega, decide_true, Bool.true_and] at read
  rwa [Nat.div_add_mod] at read

def wordsBytes (words : List (BitVec 64)) : List (BitVec 8) := words.flatMap wordBytes

theorem wordsBytes_length (words : List (BitVec 64)) : (wordsBytes words).length = 8 * words.length := by
  induction words with
  | nil => rfl
  | cons word words ih =>
      rw [wordsBytes, List.flatMap_cons, List.length_append, wordBytes_length, ← wordsBytes, ih,
        List.length_cons]
      omega

theorem wordsBytes_append (words more : List (BitVec 64)) :
    wordsBytes (words ++ more) = wordsBytes words ++ wordsBytes more := List.flatMap_append

theorem wordsBytes_singleton (word : BitVec 64) : wordsBytes [word] = wordBytes word :=
  List.flatMap_singleton ..

theorem holds_words_cons {mem : Memory} {start : Nat} {word : BitVec 64} {words : List (BitVec 64)} :
    Holds mem start (wordsBytes (word :: words)) ↔
      Holds mem start (wordBytes word) ∧ Holds mem (start + 8) (wordsBytes words) := by
  rw [wordsBytes, List.flatMap_cons, holds_append, wordBytes_length, wordsBytes]

/-- A number of some bytes, the lowest first. -/
@[grind =] def loadLe (mem : Memory) (start : Nat) : Nat → Nat
  | 0 => 0
  | width + 1 => (mem start).toNat + 256 * loadLe mem (start + 1) width

theorem loadLe_congr {mem other : Memory} {start : Nat} (width : Nat)
    (same : ∀ addr, start ≤ addr → addr < start + width → mem addr = other addr) :
    loadLe mem start width = loadLe other start width := by
  induction width generalizing start with
  | zero => rfl
  | succ width ih =>
      rw [loadLe, loadLe, same start (Nat.le_refl _) (by omega),
        ih fun addr first last => same addr (by omega) (by omega)]

theorem loadLe_shift (mem : Memory) (base start width : Nat) :
    loadLe (fun addr => mem (base + addr)) start width = loadLe mem (base + start) width := by
  induction width generalizing start with
  | zero => rfl
  | succ width ih => rw [loadLe, loadLe, ih, Nat.add_assoc]

end ByteMemory
