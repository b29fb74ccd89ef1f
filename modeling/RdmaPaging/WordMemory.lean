import Mathlib.Data.BitVec
import Mathlib.Logic.Function.Basic
import Mathlib.Tactic.Ring

/-!
Memory of bytes by 64-bit addresses that wrap, the words of eight bytes in it, and frames: blocks with
a word for each of some names.
-/

namespace WordMemory

abbrev Bytes := BitVec 64 → BitVec 8

def byteOf (word : BitVec 64) (index : Nat) : BitVec 8 := BitVec.ofNat 8 (word.toNat / 2 ^ (8 * index))

/-- Stores a word, the lowest byte first. -/
def store (mem : Bytes) (place word : BitVec 64) : Bytes := fun addr =>
  if (addr - place).toNat < 8 then byteOf word (addr - place).toNat else mem addr

/-- The number that some bytes make. -/
def loadNat (mem : Bytes) (place : BitVec 64) : Nat → Nat
  | 0 => 0
  | count + 1 => loadNat mem place count + 2 ^ (8 * count) * (mem (place + BitVec.ofNat 64 count)).toNat

def load (mem : Bytes) (place : BitVec 64) : BitVec 64 := BitVec.ofNat 64 (loadNat mem place 8)

/-- The words at two addresses have no byte in common. -/
def WordsApart (first second : BitVec 64) : Prop := 8 ≤ (first - second).toNat ∧ 8 ≤ (second - first).toNat

instance : DecidableRel WordsApart := fun _ _ => inferInstanceAs (Decidable (_ ∧ _))

/-- Two blocks of bytes, each an address and a size, have no byte in common. -/
def BlocksApart (first : BitVec 64) (size : Nat) (second : BitVec 64) (count : Nat) : Prop :=
  size ≤ (second - first).toNat ∧ count ≤ (first - second).toNat

instance {size count : Nat} {first second : BitVec 64} : Decidable (BlocksApart first size second count) :=
  inferInstanceAs (Decidable (_ ∧ _))

variable {mem after : Bytes} {place word addr first second base : BitVec 64}

theorem apart_add (base : BitVec 64) :
    WordsApart (base + first) (base + second) ↔ WordsApart first second := by
  rw [WordsApart, WordsApart, add_sub_add_left_eq_sub, add_sub_add_left_eq_sub]

theorem BlocksApart.symm {size count : Nat} (apart : BlocksApart first size second count) :
    BlocksApart second count first size :=
  ⟨apart.2, apart.1⟩

theorem BlocksApart.outside {size count : Nat} (apart : BlocksApart first size second count)
    (inside : (addr - first).toNat < size) : count ≤ (addr - second).toNat := by
  have ahead := apart.1
  have back := apart.2
  have split : addr - second = addr - first + (first - second) := by ring
  have low := first.isLt
  have high := second.isLt
  rw [split, BitVec.toNat_add]
  rw [BitVec.toNat_sub second first] at ahead
  rw [BitVec.toNat_sub first second] at back ⊢
  omega

theorem store_outside (outside : 8 ≤ (addr - place).toNat) : store mem place word addr = mem addr :=
  if_neg (by omega)

theorem loadNat_congr {count : Nat} (same : ∀ index < count, after (place + BitVec.ofNat 64 index) =
    mem (place + BitVec.ofNat 64 index)) : loadNat after place count = loadNat mem place count := by
  induction count with
  | zero => rfl
  | succ count ih =>
      rw [loadNat, loadNat, ih fun index small => same index (Nat.lt_succ_of_lt small),
        same count (Nat.lt_succ_self count)]

theorem load_congr (same : ∀ index < 8, after (place + BitVec.ofNat 64 index) =
    mem (place + BitVec.ofNat 64 index)) : load after place = load mem place := by
  rw [load, load, loadNat_congr same]

theorem loadNat_store {count : Nat} (bound : count ≤ 8) :
    loadNat (store mem place word) place count = word.toNat % 2 ^ (8 * count) := by
  induction count with
  | zero => rw [loadNat, Nat.mul_zero, Nat.pow_zero, Nat.mod_one]
  | succ count ih =>
      have offset : (place + BitVec.ofNat 64 count - place).toNat = count := by
        rw [add_sub_cancel_left, BitVec.toNat_ofNat]
        omega
      have byte : store mem place word (place + BitVec.ofNat 64 count) = byteOf word count := by
        rw [store, offset, if_pos (by omega)]
      rw [loadNat, ih (by omega), byte, byteOf, BitVec.toNat_ofNat, Nat.mul_succ, Nat.pow_add, Nat.mod_mul]

theorem load_store : load (store mem place word) place = word := by
  rw [load, loadNat_store (Nat.le_refl 8), Nat.mod_eq_of_lt word.isLt]
  simp

theorem load_store_apart (apart : WordsApart first second) :
    load (store mem first word) second = load mem second := by
  refine load_congr fun index small => store_outside ?_
  have back := apart.1
  have ahead := apart.2
  have split : second + BitVec.ofNat 64 index - first = second - first + BitVec.ofNat 64 index := by ring
  have low := first.isLt
  have high := second.isLt
  rw [BitVec.toNat_sub] at back ahead
  rw [split, BitVec.toNat_add, BitVec.toNat_ofNat, BitVec.toNat_sub]
  omega

/-! Frames. -/

section Frame

variable {ι : Type} {offset values regs : ι → BitVec 64} {names : List ι} {name : ι}

/-- Stores the values of the names, each at its offset. -/
def saveAll (offset values : ι → BitVec 64) (base : BitVec 64) (names : List ι) (mem : Bytes) : Bytes :=
  names.foldl (fun mem name => store mem (base + offset name) (values name)) mem

/-- Loads the values of the names. -/
def restoreAll [DecidableEq ι] (offset : ι → BitVec 64) (mem : Bytes) (base : BitVec 64) (names : List ι)
    (regs : ι → BitVec 64) : ι → BitVec 64 :=
  names.foldl (fun regs name => Function.update regs name (load mem (base + offset name))) regs

theorem saveAll_append (first second : List ι) : saveAll offset values base (first ++ second) mem =
    saveAll offset values base second (saveAll offset values base first mem) :=
  List.foldl_append

theorem saveAll_map {κ : Type} {named : κ → ι} {list : List κ} {keys : κ → BitVec 64}
    (same : ∀ key ∈ list, keys key = values (named key)) :
    saveAll (fun key => offset (named key)) keys base list mem =
      saveAll offset values base (list.map named) mem := by
  induction list generalizing mem with
  | nil => rfl
  | cons head rest ih =>
      have step : saveAll (fun key => offset (named key)) keys base (head :: rest) mem =
          saveAll (fun key => offset (named key)) keys base rest
            (store mem (base + offset (named head)) (keys head)) := rfl
      rw [step, ih fun key member => same key (List.mem_cons_of_mem _ member), same head List.mem_cons_self]
      rfl

theorem load_saveAll [DecidableEq ι] (apart : ∀ a b, a ≠ b → WordsApart (offset a) (offset b)) :
    load (saveAll offset values base names mem) (base + offset name) =
      if name ∈ names then values name else load mem (base + offset name) := by
  induction names generalizing mem with
  | nil => simp [saveAll]
  | cons head rest ih =>
      have step : saveAll offset values base (head :: rest) mem =
          saveAll offset values base rest (store mem (base + offset head) (values head)) := rfl
      rw [step, ih]
      by_cases later : name ∈ rest
      · rw [if_pos later, if_pos (List.mem_cons_of_mem _ later)]
      · rw [if_neg later]
        by_cases same : name = head
        · subst same
          rw [if_pos List.mem_cons_self, load_store]
        · rw [if_neg (by simp [same, later])]
          exact load_store_apart ((apart_add base).mpr (apart head name (Ne.symm same)))

theorem saveAll_outside {size : Nat} (bound : ∀ name ∈ names, (offset name).toNat + 8 ≤ size)
    (outside : size ≤ (addr - base).toNat) : saveAll offset values base names mem addr = mem addr := by
  induction names generalizing mem with
  | nil => rfl
  | cons head rest ih =>
      have step : saveAll offset values base (head :: rest) mem =
          saveAll offset values base rest (store mem (base + offset head) (values head)) := rfl
      rw [step, ih fun name member => bound name (List.mem_cons_of_mem _ member)]
      apply store_outside
      have first := bound head List.mem_cons_self
      have split : addr - (base + offset head) = addr - base - offset head := by ring
      rw [split, BitVec.toNat_sub]
      omega

theorem restoreAll_apply [DecidableEq ι] : restoreAll offset mem base names regs name =
    if name ∈ names then load mem (base + offset name) else regs name := by
  induction names generalizing regs with
  | nil => simp [restoreAll]
  | cons head rest ih =>
      have step : restoreAll offset mem base (head :: rest) regs =
          restoreAll offset mem base rest (Function.update regs head (load mem (base + offset head))) := rfl
      rw [step, ih]
      by_cases later : name ∈ rest
      · rw [if_pos later, if_pos (List.mem_cons_of_mem _ later)]
      · rw [if_neg later]
        by_cases same : name = head
        · subst same
          rw [Function.update_self, if_pos List.mem_cons_self]
        · rw [Function.update_of_ne same, if_neg (by simp [same, later])]

end Frame

end WordMemory
