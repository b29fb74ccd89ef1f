import Mathlib.Data.List.GetD
import RdmaPaging.SandboxTrap
import RdmaPaging.SthreadMachine

/-!
The system calls of an sthread: `syscall_handler` with the registers that it reads and changes, and
the functions on the bitmap of permitted calls.
-/

namespace RdmaPaging

/-- `(int) tf->rax`. -/
def DuneTf.num (tf : DuneTf) : Int := (tf.rax.setWidth 32).toInt

/-- A security context where it lies, with the byte that follows its last field `sc_sys`. -/
structure ScCell where
  sc : Sc
  next : BitVec 8
deriving DecidableEq

/-- `1 << (sysno % 8)`. The processor takes the count of a shift modulo 32. -/
def sysBit (sysno : Int) : BitVec 32 := 1#32 <<< (sysno.tmod 8 % 32).toNat

/-- `sc_sys_add`, or `none` where it ends the process. -/
def scSysAddAt (sysno : Int) (cell : ScCell) : Option ScCell :=
  let pos := sysno.tdiv 8
  if pos < 0 ∨ 16 < pos then none
  else if pos = 16 then some { cell with next := cell.next ||| (sysBit sysno).setWidth 8 }
  else
    some { cell with sc.sys := cell.sc.sys.modify pos.toNat (· ||| (sysBit sysno).setWidth 8) }

/-- `can_do_sys`, or `none` where it ends the process. -/
def canDoSysAt (sysno : Int) (cell : ScCell) : Option Bool :=
  let pos := sysno.tdiv 8
  if sysno = 666 ∨ sysno = 0 ∨ sysno = 1 then some true
  else if pos < 0 ∨ 16 < pos then none
  else
    let byte := if pos = 16 then cell.next else cell.sc.sys.getD pos.toNat 0
    some (byte.setWidth 32 &&& sysBit sysno ≠ 0)

/-- The context of an sthread. The pointer `st_writable` follows it. -/
def Sthread.cell {Root : Type} (s : Sthread Root) : ScCell := ⟨s.sc, BitVec.ofNat 8 s.writable⟩

/-- How the handler ends. A call that `waits` is passed through when the sthread is scheduled next. -/
inductive Sthread.Handled
  | died
  | blocked (tf : DuneTf)
  | passed (tf : DuneTf)
  | waits (tf : DuneTf)
  | opened (rc : BitVec 32)
  | exited

/-- The protection of its descriptor that a call needs. -/
def fdPermOf (num : Int) : Option (BitVec 32) :=
  if num = 0 then some protRead
  else if num = 1 ∨ num = 3 then some protWrite
  else none

/-- The buffer of a call that is checked, and its length. `pathLen` is that of the path of `open`. -/
def bufferOf (num : Int) (tf : DuneTf) (pathLen : Nat) : Option (Nat × Nat) :=
  if num = 2 then some (tf.rdi.toNat, pathLen)
  else if num = 0 ∨ num = 1 then some (tf.rsi.toNat, tf.rdx.toNat)
  else none

/-- `*ptr = addr`. -/
def DuneTf.setBuffer (tf : DuneTf) (num : Int) (addr : Nat) : DuneTf :=
  if num = 2 then { tf with rdi := BitVec.ofNat 64 addr } else { tf with rsi := BitVec.ofNat 64 addr }

def DuneTf.blocked (tf : DuneTf) : DuneTf := { tf with rax := -22#64 }

/-- The end of the handler, for a call that has passed the checks. -/
def specialTreatment (w : Wedge) (tf : DuneTf) (rc : BitVec 32) (s : Sthread PageTable) (mem : HostMem) :
    Sthread.Handled × Sthread PageTable × HostMem :=
  if tf.num = 666 then
    let recycled := recycle w s mem
    (.exited, { recycled.1 with ret := tf.rdi, state := .zombie }, recycled.2)
  else if tf.num = 0 then (.waits tf, s, mem)
  else if tf.num = 2 then
    if rc.msb then (.opened rc, s, mem)
    else
      match scFdAdd s.sc rc (protRead ||| protWrite) with
      | some sc => (.opened rc, { s with sc := sc }, mem)
      | none => (.died, s, mem)
  else (.passed tf, s, mem)

/-- `syscall_handler`. `rc` is what the host returns for `open`. -/
def Sthread.syscallHandler (w : Wedge) (tf : DuneTf) (pathLen : Nat) (rc : BitVec 32) (s : Sthread PageTable)
    (mem : HostMem) : Sthread.Handled × Sthread PageTable × HostMem :=
  match canDoSysAt tf.num s.cell with
  | none => (.died, s, mem)
  | some false => (.blocked tf.blocked, s, mem)
  | some true =>
      if (fdPermOf tf.num).all fun perm => hasFdPerm s.sc (tf.rdi.setWidth 32) perm then
        match bufferOf tf.num tf pathLen with
        | none => specialTreatment w tf rc s mem
        | some (ptr, len) =>
            if s.walk = 0 then (.died, s, mem)
            else
              let checked := { s with walk := (hasMemPerm w s ptr len).2 }
              if (hasMemPerm w s ptr len).1 then
                specialTreatment w (tf.setBuffer tf.num (bufferAddr w s ptr len)) rc checked mem
              else (.blocked tf.blocked, checked, mem)
      else (.blocked tf.blocked, s, mem)

/-! The bitmap. -/

def sysAllowed (sys : List (BitVec 8)) (n : Nat) : Bool := (sys.getD (n / 8) 0).getLsbD (n % 8)

section Bitmap

variable {cell after : ScCell} {n m : Nat} {sysno : Int}

theorem sysBit_nat (n : Nat) : sysBit n = BitVec.twoPow 32 (n % 8) := by
  have count : ((n : Int).tmod 8 % 32).toNat = n % 8 := by
    rw [Int.tmod_eq_emod_of_nonneg (by omega)]
    omega
  rw [sysBit, count, BitVec.twoPow_eq]

theorem bit_test {width place : Nat} (word : BitVec width) (bound : place < width) :
    word &&& BitVec.twoPow width place ≠ 0 ↔ word.getLsbD place = true := by
  rw [BitVec.and_twoPow]
  by_cases bit : word.getLsbD place = true
  · have nonzero : BitVec.twoPow width place ≠ 0 := by
      intro zero
      have here := congrArg (fun word => word.getLsbD place) zero
      simp [bound] at here
    simpa [bit] using nonzero
  · simp [bit]

theorem byte_test (byte : BitVec 8) {place : Nat} (bound : place < 32) :
    byte.setWidth 32 &&& BitVec.twoPow 32 place ≠ 0 ↔ byte.getLsbD place = true := by
  rw [bit_test _ bound, BitVec.getLsbD_setWidth, decide_eq_true bound, Bool.true_and]

/-- A number of the bitmap, tested. -/
theorem canDoSysAt_inside (bound : n < 128) (notDefault : n ≠ 0 ∧ n ≠ 1) (cell : ScCell) :
    canDoSysAt n cell = some (sysAllowed cell.sc.sys n) := by
  have pos : (n : Int).tdiv 8 = (n / 8 : Nat) := by
    rw [Int.tdiv_eq_ediv_of_nonneg (by omega)]
    rfl
  have low : ¬ ((n / 8 : Nat) : Int) < 0 := by omega
  unfold canDoSysAt
  simp only [pos]
  rw [if_neg (by omega), if_neg (by omega), if_neg (by omega), Int.toNat_natCast, sysBit_nat, sysAllowed]
  congr 1
  rw [Bool.eq_iff_iff, decide_eq_true_eq]
  exact byte_test _ (by omega)

/-- The eight numbers after the bitmap are tested in the byte that follows it. -/
theorem canDoSysAt_beyond (first : 128 ≤ n) (last : n < 136) (cell : ScCell) :
    canDoSysAt n cell = some (cell.next.getLsbD (n % 8)) := by
  have pos : (n : Int).tdiv 8 = 16 := by
    rw [Int.tdiv_eq_ediv_of_nonneg (by omega)]
    omega
  unfold canDoSysAt
  simp only [pos]
  rw [if_neg (by omega), if_neg (by omega), if_true, sysBit_nat]
  congr 1
  rw [Bool.eq_iff_iff, decide_eq_true_eq]
  exact byte_test _ (by omega)

/-- A small negative number is tested at a bit that no byte has. -/
theorem canDoSysAt_negative (first : -8 < sysno) (last : sysno < 0) (cell : ScCell) :
    canDoSysAt sysno cell = some false := by
  have negatives : sysno.tdiv 8 = 0 ∧
      ∃ place, 8 ≤ place ∧ place < 32 ∧ sysBit sysno = BitVec.twoPow 32 place := by
    obtain rfl | rfl | rfl | rfl | rfl | rfl | rfl : sysno = -1 ∨ sysno = -2 ∨ sysno = -3 ∨
      sysno = -4 ∨ sysno = -5 ∨ sysno = -6 ∨ sysno = -7 := by omega
    exacts [⟨rfl, 31, by decide⟩, ⟨rfl, 30, by decide⟩, ⟨rfl, 29, by decide⟩,
      ⟨rfl, 28, by decide⟩, ⟨rfl, 27, by decide⟩, ⟨rfl, 26, by decide⟩, ⟨rfl, 25, by decide⟩]
  obtain ⟨pos, place, high, bound, bit⟩ := negatives
  unfold canDoSysAt
  simp only [pos]
  rw [if_neg (by omega), if_neg (by omega), if_neg (by omega), bit]
  congr 1
  rw [decide_eq_false_iff_not, byte_test _ bound, BitVec.getLsbD_of_ge _ _ high]
  simp

/-- Every other number but 666 ends the process. -/
theorem canDoSysAt_outside (outside : sysno ≤ -8 ∨ 136 ≤ sysno) (notExit : sysno ≠ 666)
    (cell : ScCell) : canDoSysAt sysno cell = none := by
  have pos : sysno.tdiv 8 < 0 ∨ 16 < sysno.tdiv 8 := by
    rcases outside with low | high
    · left
      have opposite : sysno.tdiv 8 = -((-sysno) / 8) := by
        rw [← Int.tdiv_eq_ediv_of_nonneg (by omega), Int.neg_tdiv, Int.neg_neg]
      omega
    · right
      rw [Int.tdiv_eq_ediv_of_nonneg (by omega)]
      omega
  unfold canDoSysAt
  simp only
  rw [if_neg (by omega), if_pos pos]

theorem mask_byte {place : Nat} (bound : place < 8) :
    (BitVec.twoPow 32 place).setWidth 8 = BitVec.twoPow 8 place := by
  apply BitVec.eq_of_getLsbD_eq
  intro i inByte
  simp only [BitVec.getLsbD_setWidth, BitVec.getLsbD_twoPow, inByte, decide_true, Bool.true_and]
  have wide : decide (place < 32) = decide (place < 8) := by
    rw [decide_eq_decide]
    omega
  rw [wide]

theorem scSysAddAt_inside (bound : n < 128) (cell : ScCell) : scSysAddAt n cell =
    some { cell with sc.sys := cell.sc.sys.modify (n / 8) (· ||| BitVec.twoPow 8 (n % 8)) } := by
  have pos : (n : Int).tdiv 8 = (n / 8 : Nat) := by
    rw [Int.tdiv_eq_ediv_of_nonneg (by omega)]
    rfl
  have bit : (sysBit n).setWidth 8 = BitVec.twoPow 8 (n % 8) := by rw [sysBit_nat, mask_byte (by omega)]
  unfold scSysAddAt
  simp only [pos, bit]
  rw [if_neg (by omega), if_neg (by omega), Int.toNat_natCast]

theorem scSysAddAt_beyond (first : 128 ≤ n) (last : n < 136) (cell : ScCell) : scSysAddAt n cell =
    some { cell with next := cell.next ||| BitVec.twoPow 8 (n % 8) } := by
  have pos : (n : Int).tdiv 8 = 16 := by
    rw [Int.tdiv_eq_ediv_of_nonneg (by omega)]
    omega
  have bit : (sysBit n).setWidth 8 = BitVec.twoPow 8 (n % 8) := by rw [sysBit_nat, mask_byte (by omega)]
  unfold scSysAddAt
  simp only [pos, bit]
  rw [if_neg (by omega), if_true]

theorem scSysAddAt_outside (outside : 136 ≤ n) (cell : ScCell) : scSysAddAt n cell = none := by
  have pos : (n : Int).tdiv 8 = (n / 8 : Nat) := by
    rw [Int.tdiv_eq_ediv_of_nonneg (by omega)]
    rfl
  unfold scSysAddAt
  simp only [pos]
  rw [if_pos (by omega)]

/-- Adding a number sets its bit and no other. -/
theorem sysAllowed_modify {sys : List (BitVec 8)} (size : sys.length = 16) (bound : n < 128)
    (other : m < 128) : sysAllowed (sys.modify (n / 8) (· ||| BitVec.twoPow 8 (n % 8))) m =
      (sysAllowed sys m || decide (m = n)) := by
  have inside : m / 8 < sys.length := by omega
  unfold sysAllowed
  rw [List.getD_eq_getElem _ _ (by simpa using inside), List.getD_eq_getElem _ _ inside, List.getElem_modify]
  by_cases byte : n / 8 = m / 8
  · rw [if_pos byte, BitVec.getLsbD_or, BitVec.getLsbD_twoPow]
    have small : decide (n % 8 < 8) = true := by
      rw [decide_eq_true_eq]
      omega
    have place : decide (n % 8 = m % 8) = decide (m = n) := by
      rw [decide_eq_decide]
      omega
    rw [small, place, Bool.true_and]
  · have different : m ≠ n := by
      rintro rfl
      exact byte rfl
    rw [if_neg byte, decide_eq_false different, Bool.or_false]

/-! Up to the byte after the context these are the functions of the machine. -/

theorem scSysAdd_at (size : cell.sc.sys.length = 16) (n : Nat) :
    scSysAdd cell.sc n = (scSysAddAt n cell).map ScCell.sc := by
  rcases Nat.lt_or_ge n 128 with inside | past
  · rw [scSysAddAt_inside inside, scSysAdd, if_neg (by omega), ← BitVec.twoPow_eq]
    rfl
  · rcases Nat.lt_or_ge n 136 with beyond | outside
    · have kept : cell.sc.sys.modify (n / 8) (· ||| 1#8 <<< (n % 8)) = cell.sc.sys :=
        List.modify_eq_self (by omega)
      rw [scSysAddAt_beyond past beyond, scSysAdd, if_neg (by omega), kept]
      rfl
    · rw [scSysAddAt_outside outside, scSysAdd, if_pos (by omega)]
      rfl

theorem canDoSys_at (size : cell.sc.sys.length = 16) (notPast : n < 128 ∨ 136 ≤ n) :
    canDoSys cell.sc n = canDoSysAt n cell := by
  by_cases default : n = 666 ∨ n = 0 ∨ n = 1
  · rw [canDoSys, if_pos default, canDoSysAt, if_pos (by omega)]
  · rw [canDoSys, if_neg default]
    rcases notPast with inside | outside
    · have byte : n / 8 < cell.sc.sys.length := by omega
      rw [canDoSysAt_inside inside (by omega), if_neg (by omega), List.getElem?_eq_getElem byte,
        sysAllowed, List.getD_eq_getElem _ _ byte, Option.map_some, ← BitVec.twoPow_eq]
      congr 1
      rw [Bool.eq_iff_iff, decide_eq_true_eq]
      exact bit_test _ (by omega)
    · rw [canDoSysAt_outside (by omega) (by omega), if_pos (by omega)]

end Bitmap

/-! Rights to call. -/

/-- Calls of `sc_sys_add` in turn. -/
def scSysAdds (added : List Nat) (first : ScCell) : Option ScCell :=
  added.foldl (fun cell (n : Nat) => cell.bind (scSysAddAt n)) (some first)

/-- The default calls and those that were added. -/
def Permitted (added : List Nat) (num : Int) : Prop :=
  num = 666 ∨ num = 0 ∨ num = 1 ∨ ∃ n ∈ added, num = n

/-- A call of `sc_sys_add` has set the bit of its number and changed nothing else. -/
structure AddsOwnBit (n : Nat) (before after : ScCell) : Prop where
  inside : n < 128
  bits : ∀ m < 128, sysAllowed after.sc.sys m = (sysAllowed before.sc.sys m || decide (m = n))
  size : after.sc.sys.length = before.sc.sys.length
  rest : after.sc.mem = before.sc.mem ∧ after.sc.fd = before.sc.fd ∧ after.next = before.next

/-- What the bitmap is for: the numbers of `added` and the default ones are permitted, and a call of
another number is answered with `-EINVAL`. -/
structure SysRights (w : Wedge) (added : List Nat) (first : ScCell) (s : Sthread PageTable) (tf : DuneTf) :
    Prop where
  adds : ∀ before (n : Nat) cell next, before ++ [n] <+: added → scSysAdds before first = some cell →
    scSysAddAt n cell = some next → AddsOwnBit n cell next
  decides : ∀ cell, scSysAdds added first = some cell →
    (canDoSysAt tf.num { s with sc := cell.sc }.cell = some true ↔ Permitted added tf.num)
  refuses : ∀ cell, scSysAdds added first = some cell → ¬ Permitted added tf.num →
    ∀ pathLen rc mem, Sthread.syscallHandler w tf pathLen rc { s with sc := cell.sc } mem =
      (.blocked tf.blocked, { s with sc := cell.sc }, mem)

/-- No number past the bitmap is added that the bounds check lets pass. -/
def AddedInside (added : List Nat) : Prop :=
  ∀ before n, before ++ [n] <+: added → (∀ m ∈ before, m < 136) → ¬ (128 ≤ n ∧ n < 136)

section Rights

variable {added : List Nat} {first cell : ScCell} {n : Nat}

theorem scSysAdds_snoc (added : List Nat) (n : Nat) (first : ScCell) :
    scSysAdds (added ++ [n]) first = (scSysAdds added first).bind (scSysAddAt n) := by
  rw [scSysAdds, List.foldl_append]
  rfl

/-- The process lives on after a sequence whose numbers all pass the bounds check. -/
theorem scSysAdds_isSome (added : List Nat) (first : ScCell) :
    (scSysAdds added first).isSome = true ↔ ∀ n ∈ added, n < 136 := by
  induction added using List.reverseRecOn with
  | nil => simp [scSysAdds]
  | append_singleton added n ih =>
      rw [scSysAdds_snoc, List.forall_mem_append, List.forall_mem_singleton, ← ih]
      cases scSysAdds added first with
      | none => simp
      | some cell =>
          simp only [Option.bind_some, Option.isSome_some, true_and]
          rcases Nat.lt_or_ge n 128 with inside | past
          · rw [scSysAddAt_inside inside]
            exact iff_of_true rfl (by omega)
          · rcases Nat.lt_or_ge n 136 with beyond | outside
            · rw [scSysAddAt_beyond past beyond]
              exact iff_of_true rfl beyond
            · rw [scSysAddAt_outside outside]
              exact iff_of_false (by simp) (by omega)

theorem scSysAddAt_own (inside : n < 128) (size : cell.sc.sys.length = 16) {next : ScCell}
    (result : scSysAddAt n cell = some next) : AddsOwnBit n cell next := by
  rw [scSysAddAt_inside inside, Option.some.injEq] at result
  subst result
  exact ⟨inside, fun m other => sysAllowed_modify size inside other, List.length_modify _ _ _,
    rfl, rfl, rfl⟩

/-- A sequence of numbers inside the bitmap sets their bits. -/
theorem scSysAdds_bits (size : first.sc.sys.length = 16) (inside : ∀ n ∈ added, n < 128)
    (result : scSysAdds added first = some cell) : cell.sc.sys.length = 16 ∧
      ∀ m < 128, sysAllowed cell.sc.sys m = (sysAllowed first.sc.sys m || decide (m ∈ added)) := by
  induction added using List.reverseRecOn generalizing cell with
  | nil =>
      obtain rfl := Option.some.inj result
      exact ⟨size, by simp⟩
  | append_singleton added n ih =>
      rw [scSysAdds_snoc] at result
      obtain ⟨before, earlier, last⟩ := Option.bind_eq_some_iff.mp result
      obtain ⟨beforeSize, bits⟩ := ih (fun m member => inside m (by simp [member])) earlier
      have own := scSysAddAt_own (inside n (by simp)) beforeSize last
      refine ⟨own.size.trans beforeSize, fun m bound => ?_⟩
      rw [own.bits m bound, bits m bound, Bool.or_assoc, ← Bool.decide_or]
      simp

theorem permitted_number (notDefault : n ≠ 666 ∧ n ≠ 0 ∧ n ≠ 1) :
    Permitted added n ↔ n ∈ added := by
  constructor
  · rintro (exit | read | write | ⟨m, member, same⟩)
    · omega
    · omega
    · omega
    · obtain rfl : n = m := by omega
      exact member
  · intro member
    exact Or.inr (Or.inr (Or.inr ⟨n, member, rfl⟩))

theorem permitted_negative {num : Int} (negative : num < 0) : ¬ Permitted added num := by
  rintro (exit | read | write | ⟨n, _, same⟩) <;> omega

/-- What `can_do_sys` answers after a sequence inside the bitmap. -/
theorem canDoSysAt_added {s : Sthread PageTable} {num : Int} (blank : first.sc.sys = List.replicate 16 0)
    (pageAligned : s.writable % 4096 = 0) (inside : ∀ n ∈ added, n < 128)
    (range : -8 < num ∧ num < 136 ∨ num = 666) (result : scSysAdds added first = some cell) :
    (canDoSysAt num { s with sc := cell.sc }.cell = some true ∧ Permitted added num) ∨
      canDoSysAt num { s with sc := cell.sc }.cell = some false ∧ ¬ Permitted added num := by
  obtain ⟨_, bits⟩ := scSysAdds_bits (by simp [blank]) inside result
  have notSet : ∀ m, sysAllowed (List.replicate 16 (0 : BitVec 8)) m = false := by
    intro m
    rw [sysAllowed, List.getD_eq_getElem?_getD, List.getElem?_getD_replicate_default_eq]
    simp
  by_cases default : num = 666 ∨ num = 0 ∨ num = 1
  · refine Or.inl ⟨if_pos default, ?_⟩
    unfold Permitted
    tauto
  rcases Int.lt_or_le num 0 with negative | natural
  · exact Or.inr ⟨canDoSysAt_negative (by omega) negative _, permitted_negative negative⟩
  obtain ⟨n, rfl⟩ : ∃ n : Nat, num = n := ⟨num.toNat, by omega⟩
  have notDefault : n ≠ 666 ∧ n ≠ 0 ∧ n ≠ 1 := by omega
  rw [permitted_number notDefault]
  rcases Nat.lt_or_ge n 128 with bound | past
  · have bit := bits n bound
    rw [blank, notSet, Bool.false_or] at bit
    rw [canDoSysAt_inside bound notDefault.2, Sthread.cell, bit]
    by_cases member : n ∈ added
    · exact Or.inl ⟨by rw [decide_eq_true member], member⟩
    · exact Or.inr ⟨by rw [decide_eq_false member], member⟩
  · have low : BitVec.ofNat 8 s.writable = 0 := by
      apply BitVec.eq_of_toNat_eq
      rw [BitVec.toNat_ofNat]
      change _ = 0
      omega
    rw [canDoSysAt_beyond past (by omega), Sthread.cell]
    dsimp only
    rw [low]
    exact Or.inr ⟨by simp, fun member => absurd (inside n member) (by omega)⟩

/-- The rights to call are exactly those granted unless a number from 128 to 135 is added, or the
sthread calls a number that the bounds check of `can_do_sys` stops at. -/
theorem sys_rights_iff (w : Wedge) (added : List Nat) (first : ScCell) (s : Sthread PageTable) (tf : DuneTf)
    (blank : first.sc.sys = List.replicate 16 0) (pageAligned : s.writable % 4096 = 0) :
    SysRights w added first s tf ↔
      AddedInside added ∧
        ((∀ n ∈ added, n < 136) → -8 < tf.num ∧ tf.num < 136 ∨ tf.num = 666) := by
  have size : first.sc.sys.length = 16 := by simp [blank]
  constructor
  · rintro ⟨adds, decides, refuses⟩
    have inside : AddedInside added := by
      rintro before n initial small ⟨past, beyond⟩
      obtain ⟨cell, earlier⟩ := Option.isSome_iff_exists.mp ((scSysAdds_isSome before first).mpr small)
      have own := (adds before n cell _ initial earlier (scSysAddAt_beyond past beyond cell)).inside
      omega
    refine ⟨inside, fun small => ?_⟩
    by_contra outside
    obtain ⟨cell, result⟩ := Option.isSome_iff_exists.mp ((scSysAdds_isSome added first).mpr small)
    have dies : canDoSysAt tf.num { s with sc := cell.sc }.cell = none :=
      canDoSysAt_outside (by omega) (by omega) _
    have notPermitted : ¬ Permitted added tf.num := by
      rw [← decides cell result, dies]
      simp
    have answer := refuses cell result notPermitted 0 0 fun _ => 0
    rw [Sthread.syscallHandler, dies] at answer
    exact absurd (congrArg Prod.fst answer) (by simp)
  · rintro ⟨addedInside, range⟩
    have inside : ∀ before, before <+: added → (∀ n ∈ before, n < 136) →
        ∀ n ∈ before, n < 128 := by
      intro before initial small n member
      obtain ⟨front, back, split⟩ := List.append_of_mem member
      have upTo : front ++ [n] <+: before := by
        rw [split]
        exact ⟨back, by simp⟩
      have notBeyond := addedInside front n (upTo.trans initial)
        fun m inFront => small m (by simp [split, inFront])
      have bound := small n member
      omega
    have range_ : ∀ cell, scSysAdds added first = some cell →
        (∀ n ∈ added, n < 128) ∧ (-8 < tf.num ∧ tf.num < 136 ∨ tf.num = 666) := by
      intro cell result
      have small := (scSysAdds_isSome added first).mp (by simp [result])
      exact ⟨inside added (List.prefix_refl _) small, range small⟩
    refine ⟨?_, ?_, ?_⟩
    · intro before n cell next initial earlier result
      have small := (scSysAdds_isSome before first).mp (by simp [earlier])
      have earlierInside := inside before ((List.prefix_append _ _).trans initial) small
      have bounded : n < 136 := by
        by_contra outside
        rw [scSysAddAt_outside (by omega)] at result
        exact absurd result (by simp)
      have notBeyond := addedInside before n initial small
      exact scSysAddAt_own (by omega) (scSysAdds_bits size earlierInside earlier).1 result
    · intro cell result
      obtain ⟨allInside, numRange⟩ := range_ cell result
      rcases canDoSysAt_added blank pageAligned allInside numRange result with
        ⟨answer, permitted⟩ | ⟨answer, refused⟩
      · exact iff_of_true answer permitted
      · exact iff_of_false (by rw [answer]; simp) refused
    · intro cell result notPermitted pathLen rc mem
      obtain ⟨allInside, numRange⟩ := range_ cell result
      rcases canDoSysAt_added blank pageAligned allInside numRange result with
        ⟨_, permitted⟩ | ⟨answer, _⟩
      · exact absurd permitted notPermitted
      · rw [Sthread.syscallHandler, answer]

end Rights

/-- A program without recorded segments, and an sthread of it that no page is mapped for. -/
def bareWedge : Wedge where
  layout := ⟨0x1000000000#64, 0x7f0000000000#64, 0x7fff00000000#64⟩
  segments := []
  tags := []
  checkpointedMem := 0
  master := fun _ => 0

def bareSthread : Sthread PageTable := ⟨1, .running, 0, 0x20000, fun _ => 0, scInit, 0x30000, 0⟩

/-- The number 128 is added past the bitmap, and a call of the number 200 ends the process. -/
theorem sys_rights_overrun :
    ¬ SysRights bareWedge [128] ⟨scInit, 0⟩ bareSthread ⟨39, 0, 0, 0, 0, 0⟩ ∧
      ¬ SysRights bareWedge [39] ⟨scInit, 0⟩ bareSthread ⟨200, 0, 0, 0, 0, 0⟩ := by
  constructor
  · intro rights
    have own := (rights.adds [] 128 ⟨scInit, 0⟩ ⟨scInit, 1⟩ (List.prefix_refl _) rfl
      (by decide)).inside
    exact absurd own (by decide)
  · intro rights
    obtain ⟨cell, added⟩ : ∃ cell, scSysAdds [39] ⟨scInit, 0⟩ = some cell := ⟨_, rfl⟩
    have notPermitted : ¬ Permitted [39] (DuneTf.num ⟨200, 0, 0, 0, 0, 0⟩) := by
      have number : DuneTf.num ⟨200, 0, 0, 0, 0, 0⟩ = 200 := by decide
      rw [Permitted, number]
      simp
    have answer := rights.refuses cell added notPermitted 0 0 fun _ => 0
    have dies : canDoSysAt (DuneTf.num ⟨200, 0, 0, 0, 0, 0⟩) { bareSthread with sc := cell.sc }.cell =
        none := rfl
    rw [Sthread.syscallHandler, dies] at answer
    exact absurd (congrArg Prod.fst answer) (by simp)

theorem sys_rights_getpid : SysRights bareWedge [39] ⟨scInit, 0⟩ bareSthread ⟨39, 0, 0, 0, 0, 0⟩ := by
  refine (sys_rights_iff bareWedge [39] ⟨scInit, 0⟩ bareSthread ⟨39, 0, 0, 0, 0, 0⟩ rfl rfl).mpr
    ⟨?_, fun _ => ?_⟩
  · intro before n initial _
    have member : n ∈ [39] := initial.subset (by simp)
    obtain rfl := List.mem_singleton.mp member
    decide
  · decide

end RdmaPaging
