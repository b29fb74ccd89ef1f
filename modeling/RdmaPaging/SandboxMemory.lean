import RdmaPaging.SandboxTrap

/-!
What `mem_ref_is_safe` and `check_iovec` let through, as ranges of unbounded addresses.
-/

namespace RdmaPaging

section Reference

variable (ptr : VirtAddr) (len : Size)

/-- The range ends at or below the end of the program. -/
def BelowElf : Prop := ptr.toNat + len.toNat ≤ appMaxElfVaddr.toNat

/-- The range begins in the region of the mappings and ends before its last address. -/
def WithinUmm : Prop := ummAddrStart.toNat ≤ ptr.toNat ∧ ptr.toNat + len.toNat < ummAddrEnd.toNat

/-- The range goes on behind the last address, and its end comes out below the end of the
mappings. -/
def Wraps : Prop :=
  ummAddrStart.toNat ≤ ptr.toNat ∧ 2 ^ 64 ≤ ptr.toNat + len.toNat ∧
    ptr.toNat + len.toNat < 2 ^ 64 + ummAddrEnd.toNat

/-- Every address of the range belongs to the program, or every one to the mappings. -/
def OwnRange : Prop :=
  (∀ address, ptr.toNat ≤ address → address < ptr.toNat + len.toNat → address < appMaxElfVaddr.toNat) ∨
    ∀ address, ptr.toNat ≤ address → address < ptr.toNat + len.toNat →
      ummAddrStart.toNat ≤ address ∧ address < ummAddrEnd.toNat

instance : Decidable (BelowElf ptr len) := inferInstanceAs (Decidable (_ ≤ _))
instance : Decidable (WithinUmm ptr len) := inferInstanceAs (Decidable (_ ∧ _))
instance : Decidable (Wraps ptr len) := inferInstanceAs (Decidable (_ ∧ _ ∧ _))

/-- The reference is passed if it has an own range, and only then, at least away from the
last address of the mappings. -/
def RefExact : Prop :=
  (memRefIsSafe ptr len = true → OwnRange ptr len) ∧
    (BelowElf ptr len ∨ WithinUmm ptr len → memRefIsSafe ptr len = true)

variable {ptr : VirtAddr} {len : Size}

theorem appMaxElfVaddr_toNat : appMaxElfVaddr.toNat = 0x70000000 := rfl

theorem ummAddrStart_toNat : ummAddrStart.toNat = 0x300000000 := rfl

theorem ummAddrEnd_toNat : ummAddrEnd.toNat = 0x700000000 := rfl

theorem memRefIsSafe_iff :
    memRefIsSafe ptr len = true ↔ BelowElf ptr len ∨ WithinUmm ptr len ∨ Wraps ptr len := by
  have bound := ptr.isLt
  have bound' := len.isLt
  simp only [memRefIsSafe, Bool.or_eq_true, Bool.and_eq_true, decide_eq_true_eq, BitVec.le_def,
    BitVec.lt_def, BitVec.toNat_add, BelowElf, WithinUmm, Wraps, appMaxElfVaddr_toNat,
    ummAddrStart_toNat, ummAddrEnd_toNat]
  omega

theorem ownRange_iff (nonempty : len ≠ 0) : OwnRange ptr len ↔
    BelowElf ptr len ∨ (ummAddrStart.toNat ≤ ptr.toNat ∧ ptr.toNat + len.toNat ≤ ummAddrEnd.toNat) := by
  have positive : 0 < len.toNat := Nat.pos_of_ne_zero fun zero => nonempty (BitVec.eq_of_toNat_eq zero)
  have last : ptr.toNat + len.toNat - 1 < ptr.toNat + len.toNat := by omega
  constructor
  · rintro (inside | inside)
    · have := inside _ (by omega) last
      exact .inl (by rw [BelowElf]; omega)
    · have first := inside ptr.toNat (Nat.le_refl _) (by omega)
      have := inside _ (by omega) last
      exact .inr ⟨first.1, by omega⟩
  · rintro (inside | ⟨lower, upper⟩)
    · exact .inl fun address _ below => Nat.lt_of_lt_of_le below inside
    · exact .inr fun address above below => ⟨Nat.le_trans lower above, Nat.lt_of_lt_of_le below upper⟩

theorem Wraps.not_own (wraps : Wraps ptr len) (nonempty : len ≠ 0) : ¬ OwnRange ptr len := by
  have bound := len.isLt
  obtain ⟨_, beyond, _⟩ := wraps
  rw [ownRange_iff nonempty, BelowElf, appMaxElfVaddr_toNat, ummAddrEnd_toNat]
  omega

theorem own_of_fits (fits : BelowElf ptr len ∨ WithinUmm ptr len) (nonempty : len ≠ 0) :
    OwnRange ptr len :=
  (ownRange_iff nonempty).mpr (fits.imp_right fun within => ⟨within.1, Nat.le_of_lt within.2⟩)

theorem Wraps.nonempty (wraps : Wraps ptr len) : len ≠ 0 := by
  rintro rfl
  have bound := ptr.isLt
  have empty : (0 : Size).toNat = 0 := rfl
  have beyond := wraps.2.1
  omega

/-- On a reference that is not empty `mem_ref_is_safe` is exact unless the end wraps. -/
theorem refExact_iff (nonempty : len ≠ 0) : RefExact ptr len ↔ ¬ Wraps ptr len := by
  rw [RefExact, memRefIsSafe_iff]
  constructor
  · exact fun exact wraps => wraps.not_own nonempty (exact.1 (.inr (.inr wraps)))
  · intro straight
    refine ⟨fun safe => own_of_fits ?_ nonempty, fun fits => ?_⟩
    · exact safe.imp_right fun within => within.resolve_right straight
    · exact fits.imp_right .inl

end Reference

/-! The vectors of `readv` and `writev`. -/

section Vector

variable (mem : AppMem) (iov : VirtAddr)

def iovBase (index : Nat) : VirtAddr :=
  BitVec.ofNat 64 (mem.load 8 (iov + BitVec.ofNat 64 (16 * index)))

def iovLen (index : Nat) : Size :=
  BitVec.ofNat 64 (mem.load 8 (iov + BitVec.ofNat 64 (16 * index) + 8))

/-- The array of the entries, and the ranges that the entries describe. -/
def iovRefs (num : BitVec 32) : List (VirtAddr × Size) :=
  (iov, BitVec.ofNat 64 (16 * num.toNat)) ::
    (List.range num.toNat).map fun index => (iovBase mem iov index, iovLen mem iov index)

/-- A vector of a positive number of entries is passed only if the array and every range
that is not empty are the application's own. -/
def IovecExact (num : BitVec 32) : Prop :=
  0 < num.toInt → checkIovec mem iov num = true → ∀ ref ∈ iovRefs mem iov num, ref.2 ≠ 0 →
    OwnRange ref.1 ref.2

theorem goOn_iff {first rest : Bool} : (if first then rest else false) = true ↔ first = true ∧ rest = true := by
  cases first <;> simp

theorem checkIovecLoop_iff (num : Nat) :
    checkIovecLoop mem num iov = true ↔
      ∀ index < num, memRefIsSafe (iovBase mem iov index) (iovLen mem iov index) = true := by
  induction num generalizing iov with
  | zero => exact iff_of_true rfl fun _ below => absurd below (Nat.not_lt_zero _)
  | succ num ih =>
      have next (index : Nat) :
          iov + 16 + BitVec.ofNat 64 (16 * index) = iov + BitVec.ofNat 64 (16 * (index + 1)) := by
        rw [BitVec.add_assoc, Nat.mul_succ, Nat.add_comm (16 * index), BitVec.ofNat_add]
        rfl
      have head : iov + BitVec.ofNat 64 (16 * 0) = iov := BitVec.add_zero iov
      have later := ih (iov + 16)
      simp only [iovBase, iovLen, next] at later
      rw [checkIovecLoop, goOn_iff, Nat.forall_lt_succ_left]
      simp only [iovBase, iovLen, head, checkExtent]
      exact and_congr_right fun _ => later

theorem checkIovec_iff {num : BitVec 32} (positive : 0 < num.toInt) :
    checkIovec mem iov num = true ↔ ∀ ref ∈ iovRefs mem iov num, memRefIsSafe ref.1 ref.2 = true := by
  have size : 16 * num.signExtend 64 = BitVec.ofNat 64 (16 * num.toNat) := by
    have bound := num.isLt
    have plain : num.msb = false := by
      rw [BitVec.msb_eq_toInt]
      exact decide_eq_false (by omega)
    rw [BitVec.signExtend_eq_setWidth_of_msb_false plain, BitVec.ofNat_mul, BitVec.ofNat_toNat]
    rfl
  rw [checkIovec, goOn_iff, checkExtent, size, iovRefs, List.forall_mem_cons, List.forall_mem_map]
  simp only [List.mem_range]
  exact and_congr_right fun _ => checkIovecLoop_iff mem iov num.toNat

/-- `mem_ref_is_safe` passes nothing of the range. -/
def RefusedRange (ref : VirtAddr × Size) : Prop :=
  ¬ BelowElf ref.1 ref.2 ∧ ¬ WithinUmm ref.1 ref.2 ∧ ¬ Wraps ref.1 ref.2

theorem iovecExact_iff (num : BitVec 32) : IovecExact mem iov num ↔
    num.toInt ≤ 0 ∨ (∃ ref ∈ iovRefs mem iov num, RefusedRange ref) ∨
      ∀ ref ∈ iovRefs mem iov num, ¬ Wraps ref.1 ref.2 := by
  by_cases positive : 0 < num.toInt
  · rw [IovecExact, checkIovec_iff mem iov positive]
    simp only [positive, forall_true_left, memRefIsSafe_iff]
    constructor
    · intro exact
      refine .inr (Classical.or_iff_not_imp_left.mpr fun passed ref member wraps => ?_)
      refine wraps.not_own wraps.nonempty (exact (fun ref member => ?_) ref member wraps.nonempty)
      have taken : ¬ RefusedRange ref := fun refused => passed ⟨ref, member, refused⟩
      rw [RefusedRange] at taken
      tauto
    · rintro (negative | ⟨refused, member, low, high, straight⟩ | straight) safe ref member' nonempty
      · exact absurd positive (Int.not_lt.mpr negative)
      · rcases safe refused member with below | within | wraps
        · exact absurd below low
        · exact absurd within high
        · exact absurd wraps straight
      · refine own_of_fits ?_ nonempty
        exact (safe ref member').imp_right fun within => within.resolve_right (straight ref member')
  · exact iff_of_true (fun counted => absurd counted positive) (.inl (Int.not_lt.mp positive))

/-- The checks of a reference and of a vector are exact but for references that wrap; a
vector with one of these is still refused if another of its references is. -/
theorem memory_checks_exact_iff (ptr : VirtAddr) (len : Size) (num : BitVec 32) :
    ((len ≠ 0 → RefExact ptr len) ↔ ¬ Wraps ptr len) ∧
      (IovecExact mem iov num ↔
        num.toInt ≤ 0 ∨ (∃ ref ∈ iovRefs mem iov num, RefusedRange ref) ∨
          ∀ ref ∈ iovRefs mem iov num, ¬ Wraps ref.1 ref.2) := by
  refine ⟨?_, iovecExact_iff mem iov num⟩
  constructor
  · exact fun exact wraps => (refExact_iff wraps.nonempty).mp (exact wraps.nonempty) wraps
  · exact fun straight nonempty => (refExact_iff nonempty).mpr straight

end Vector

/-- The last 16 bytes of the address space and the first 16 are passed as one range. -/
theorem wrapped_range_passed :
    memRefIsSafe (-16#64) 32#64 = true ∧ 32#64 ≠ 0 ∧ ¬ OwnRange (-16#64) 32#64 ∧
      ¬ RefExact (-16#64) 32#64 := by
  have wraps : Wraps (-16#64) 32#64 := by decide
  have outside : ¬ OwnRange (-16#64) 32#64 := wraps.not_own wraps.nonempty
  exact ⟨rfl, wraps.nonempty, outside, fun exact => outside (exact.1 rfl)⟩

end RdmaPaging
