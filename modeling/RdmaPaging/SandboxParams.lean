import Mathlib.Tactic.NormNum.GCD
import RdmaPaging.SandboxMemory

/-!
The buffers and the paths that a call hands to the host, against what
`syscall_check_params` looks at. The host reads a register with the type of its own
argument.
-/

namespace RdmaPaging

/-- An `int` argument as a length. A negative one describes nothing. -/
def intLen (arg : Word) : Nat := (arg.setWidth 32).toInt.toNat

def unsignedLen (arg : Word) : Nat := (arg.setWidth 32).toNat

/-- The buffers of a call, as the host's system call takes its arguments. -/
def hostBuffers (mem : AppMem) (tf : DuneTf) : Syscall → List (VirtAddr × Nat)
  | .read | .write => [(tf.rsi, tf.rdx.toNat)]
  | .getcwd => [(tf.rdi, tf.rsi.toNat)]
  | .getdents => [(tf.rsi, unsignedLen tf.rdx)]
  | .connect | .bind => [(tf.rsi, intLen tf.rdx)]
  | .setsockopt => [(tf.rcx, intLen tf.r8)]
  | .epollWait => [(tf.rsi, 12 * intLen tf.rdx)]
  | .epollCtl => [(tf.rcx, 12)]
  | .setgroups => [(tf.rsi, 4 * intLen tf.rdi)]
  | .readv | .writev =>
      (tf.rsi, 16 * tf.rdx.toNat) :: (List.range tf.rdx.toNat).map fun index =>
        (iovBase mem tf.rsi index, (iovLen mem tf.rsi index).toNat)
  | .stat | .lstat | .fstat => [(tf.rsi, 144)]
  | .statfs => [(tf.rsi, 120)]
  | .uname => [(tf.rdi, 390)]
  | .getrlimit => [(tf.rsi, 16)]
  | .sendfile => [(tf.rdx, 8)]
  | _ => []

def hostPaths (tf : DuneTf) : Syscall → List VirtAddr
  | .stat | .lstat | .statfs => [tf.rdi]
  | _ => []

/-- The calls whose buffers are all checked before the host has them. -/
def bufferCalls : List Syscall :=
  [.read, .write, .getdents, .connect, .bind, .readv, .writev, .stat, .lstat, .fstat, .statfs,
    .uname, .getcwd, .getrlimit, .setsockopt, .epollWait, .epollCtl, .setgroups, .sendfile]

/-- `mem_ref_is_safe` of a length that need not fit its argument. -/
def BufferSafe (ref : VirtAddr × Nat) : Prop :=
  ref.2 < 2 ^ 64 ∧ memRefIsSafe ref.1 (BitVec.ofNat 64 ref.2) = true

structure HostSafe (mem : AppMem) (tf : DuneTf) : Prop where
  buffers : ∀ ref ∈ hostBuffers mem tf tf.call, ref.2 ≠ 0 → BufferSafe ref
  paths : ∀ path ∈ hostPaths tf tf.call, checkString mem path = true

/-- A call that passes the checks hands nothing unchecked to the host, and one that does
not pass them has an error and goes no further. -/
def ParamsGuard (mem : AppMem) (tf : DuneTf) : Prop :=
  match syscallCheckParams mem tf with
  | .passed => HostSafe mem tf
  | .refused out => out.rax.toInt < 0 ∧ ∀ monitor, syscallHandler monitor mem tf = .refused out
  | .aborted => False

/-! Where the checks miss something. -/

/-- A null pointer is not checked, whatever its length. -/
def NullOver (ptr : VirtAddr) (used : Nat) : Prop :=
  ptr = 0 ∧ appMaxElfVaddr.toNat < used

/-- The length that is checked fits, and not the one that the host uses. -/
def WrongLength (ptr : VirtAddr) (checked : Size) (used : Nat) : Prop :=
  ptr ≠ 0 ∧ used ≠ 0 ∧ memRefIsSafe ptr checked = true ∧ ¬ BufferSafe (ptr, used)

/-- The count of entries is one that the `int` of the check does not hold. -/
def WrongCount (mem : AppMem) (iov : VirtAddr) (count : Word) : Prop :=
  2 ^ 31 ≤ count.toNat ∧ checkIovec mem iov (count.setWidth 32) = true ∧
    (¬ BufferSafe (iov, 16 * count.toNat) ∨
      ∃ index, unsignedLen count ≤ index ∧ index < count.toNat ∧ iovLen mem iov index ≠ 0 ∧
        memRefIsSafe (iovBase mem iov index) (iovLen mem iov index) = false)

/-- A null path is not checked, and no string. -/
def NullPath (mem : AppMem) (path : VirtAddr) : Prop :=
  path = 0 ∧ ∀ offset < appMaxElfVaddr.toNat, mem (BitVec.ofNat 64 offset) ≠ 0

def Unguarded (mem : AppMem) (tf : DuneTf) : Syscall → Prop
  | .read | .write => NullOver tf.rsi tf.rdx.toNat
  | .getcwd => NullOver tf.rdi tf.rsi.toNat
  | .getdents =>
      NullOver tf.rsi (unsignedLen tf.rdx) ∨ WrongLength tf.rsi tf.rdx (unsignedLen tf.rdx)
  | .connect | .bind => NullOver tf.rsi (intLen tf.rdx) ∨ WrongLength tf.rsi tf.rdx (intLen tf.rdx)
  | .setsockopt => NullOver tf.rcx (intLen tf.r8) ∨ WrongLength tf.rcx tf.r8 (intLen tf.r8)
  | .epollWait =>
      NullOver tf.rsi (12 * intLen tf.rdx) ∨ WrongLength tf.rsi (tf.rdx * 12) (12 * intLen tf.rdx)
  | .setgroups =>
      NullOver tf.rsi (4 * intLen tf.rdi) ∨ WrongLength tf.rsi (4 * tf.rdi) (4 * intLen tf.rdi)
  | .readv | .writev => WrongCount mem tf.rsi tf.rdx
  | .stat | .lstat => NullPath mem tf.rdi ∧ memRefIsSafe tf.rsi 144 = true
  | .statfs => NullPath mem tf.rdi ∧ memRefIsSafe tf.rsi 120 = true
  | _ => False

section Lengths

variable {ptr : VirtAddr} {checked : Size} {used : Nat}

theorem bufferSafe_word (ptr : VirtAddr) (len : Size) :
    BufferSafe (ptr, len.toNat) ↔ memRefIsSafe ptr len = true := by
  rw [BufferSafe, BitVec.ofNat_toNat, BitVec.setWidth_eq]
  exact and_iff_right len.isLt

theorem bufferSafe_null (fits : used < 2 ^ 64) :
    BufferSafe (0, used) ↔ used ≤ appMaxElfVaddr.toNat := by
  have zero : (0 : VirtAddr).toNat = 0 := rfl
  rw [BufferSafe, memRefIsSafe_iff, BelowElf, WithinUmm, Wraps, BitVec.toNat_ofNat,
    Nat.mod_eq_of_lt fits, zero, ummAddrStart_toNat]
  omega

/-- The checks of a buffer miss what the two slips say, and nothing else. -/
theorem buffer_guard_iff (fits : used < 2 ^ 64) (wide : used ≠ 0 → checked ≠ 0) :
    ((ptr = 0 ∨ checked = 0 ∨ memRefIsSafe ptr checked = true) → used ≠ 0 → BufferSafe (ptr, used)) ↔
      ¬ (NullOver ptr used ∨ WrongLength ptr checked used) := by
  by_cases null : ptr = 0
  · subst null
    rw [bufferSafe_null fits, NullOver, WrongLength]
    simp only [true_or, forall_true_left, true_and, ne_eq, not_true, false_and, or_false]
    omega
  · rw [NullOver, WrongLength]
    simp only [null, false_or, false_and, ne_eq, not_false_eq_true, true_and]
    constructor
    · rintro guarded ⟨used, safe, exposed⟩
      exact exposed (guarded (.inr safe) used)
    · intro right safe used
      by_contra exposed
      exact right ⟨used, safe.resolve_left (wide used), exposed⟩

/-- One length for the check and for the host. -/
theorem same_length_iff (ptr : VirtAddr) (len : Size) :
    ((ptr = 0 ∨ len = 0 ∨ memRefIsSafe ptr len = true) → len.toNat ≠ 0 → BufferSafe (ptr, len.toNat)) ↔
      ¬ NullOver ptr len.toNat := by
  have wide : len.toNat ≠ 0 → len ≠ 0 := fun used zero => used (congrArg BitVec.toNat zero)
  rw [buffer_guard_iff len.isLt wide, WrongLength, bufferSafe_word]
  tauto

end Lengths

section Guard

variable {mem : AppMem} {tf : DuneTf} {params : Params}

theorem paramsError_zero (mem : AppMem) (params : Params) : paramsError mem params = 0 ↔
    (params.ptr = 0 ∨ params.len = 0 ∨ memRefIsSafe params.ptr params.len = true) ∧
      (params.str = 0 ∨ checkString mem params.str = true) ∧ params.err = 0 := by
  have fault : negEfault ≠ 0 := by decide
  rw [paramsError, checkExtent]
  by_cases string : params.str = 0 ∨ checkString mem params.str = true
  · have passed : ¬ (params.str ≠ 0 ∧ ¬ checkString mem params.str = true) := by tauto
    by_cases extent : params.ptr = 0 ∨ params.len = 0 ∨ memRefIsSafe params.ptr params.len = true
    · have passed' : ¬ (params.ptr ≠ 0 ∧ params.len ≠ 0 ∧
          ¬ memRefIsSafe params.ptr params.len = true) := by tauto
      simp only [if_neg passed, if_neg passed', string, extent, true_and]
    · have refused : params.ptr ≠ 0 ∧ params.len ≠ 0 ∧
          ¬ memRefIsSafe params.ptr params.len = true := by tauto
      simp only [if_neg passed, if_pos refused, fault, extent, false_and]
  · have refused : params.str ≠ 0 ∧ ¬ checkString mem params.str = true := by tauto
    simp only [if_pos refused, fault, string, false_and, and_false]

theorem negEfault_neg : negEfault.toInt < 0 := by decide

theorem paramsError_cases (mem : AppMem) (fault : params.err = 0 ∨ params.err = negEfault) :
    paramsError mem params = 0 ∨ paramsError mem params = negEfault := by
  rw [paramsError]
  split
  · exact .inr rfl
  · split
    · exact .inr rfl
    · exact fault

/-- The guard of a call whose parameters get as far as the last checks. -/
theorem guard_iff (checked : syscallParams mem tf tf.call = .checked params)
    (fault : params.err = 0 ∨ params.err = negEfault) :
    ParamsGuard mem tf ↔ (paramsError mem params = 0 → HostSafe mem tf) := by
  have outcome : syscallCheckParams mem tf =
      if paramsError mem params ≠ 0 then .refused { tf with rax := paramsError mem params }
      else .passed := by rw [syscallCheckParams, checked]
  rcases paramsError_cases mem fault with passed | refused
  · rw [if_neg (not_not.mpr passed)] at outcome
    rw [ParamsGuard, outcome]
    simp only [passed, forall_true_left]
  · have nonzero : paramsError mem params ≠ 0 := by
      rw [refused]
      decide
    rw [if_pos nonzero] at outcome
    rw [ParamsGuard, outcome]
    refine iff_of_true ⟨?_, fun monitor => ?_⟩ fun passed => absurd passed nonzero
    · rw [refused]
      exact negEfault_neg
    · rw [syscallHandler, outcome]

theorem hostSafe_buffer {ref : VirtAddr × Nat} (buffers : hostBuffers mem tf tf.call = [ref])
    (paths : hostPaths tf tf.call = []) : HostSafe mem tf ↔ (ref.2 ≠ 0 → BufferSafe ref) := by
  constructor
  · intro safe
    exact safe.buffers ref (buffers ▸ List.mem_singleton_self ref)
  · intro safe
    refine ⟨fun other member => ?_, fun path member => ?_⟩
    · rw [buffers] at member
      rwa [List.mem_singleton.mp member]
    · rw [paths] at member
      exact nomatch member

/-- A call with one buffer and no path. -/
theorem buffer_call_iff {ptr : VirtAddr} {len : Size} {used : Nat}
    (checked : syscallParams mem tf tf.call = .checked { ptr := ptr, len := len })
    (buffers : hostBuffers mem tf tf.call = [(ptr, used)]) (paths : hostPaths tf tf.call = []) :
    ParamsGuard mem tf ↔ ((ptr = 0 ∨ len = 0 ∨ memRefIsSafe ptr len = true) → used ≠ 0 →
      BufferSafe (ptr, used)) := by
  rw [guard_iff checked (.inl rfl), paramsError_zero, hostSafe_buffer buffers paths]
  simp

/-- A buffer of a fixed size is passed at a null pointer only where the program is. -/
theorem fixed_guard (ptr : VirtAddr) {len : Size} (small : len.toNat ≤ appMaxElfVaddr.toNat) :
    (ptr = 0 ∨ len = 0 ∨ memRefIsSafe ptr len = true) → len.toNat ≠ 0 →
      BufferSafe (ptr, len.toNat) :=
  (same_length_iff ptr len).mpr fun large => Nat.not_lt_of_le small large.2

theorem checkString_null (mem : AppMem) : checkString mem 0 = false ↔
    ∀ offset < appMaxElfVaddr.toNat, mem (BitVec.ofNat 64 offset) ≠ 0 := by
  have first : (0 : VirtAddr) < appMaxElfVaddr := by decide
  have whole : appMaxElfVaddr - 0 = appMaxElfVaddr := BitVec.sub_zero appMaxElfVaddr
  have start (offset : VirtAddr) : 0 + offset = offset := BitVec.zero_add offset
  rw [checkString, if_pos first, endsWithin, decide_eq_false_iff_not, whole]
  simp only [start, not_exists, not_and, ne_eq]

/-- A call with a path and a buffer of a fixed size. -/
theorem path_call_iff {call : Syscall} {path ptr : VirtAddr} {len : Size} (called : tf.call = call)
    (checked : syscallParams mem tf call = .checked { str := path, ptr := ptr, len := len })
    (buffers : hostBuffers mem tf call = [(ptr, len.toNat)]) (paths : hostPaths tf call = [path])
    (small : len.toNat ≤ appMaxElfVaddr.toNat) (nonempty : len.toNat ≠ 0) :
    ParamsGuard mem tf ↔ ¬ (NullPath mem path ∧ memRefIsSafe ptr len = true) := by
  subst called
  have passes : (ptr = 0 ∨ len = 0 ∨ memRefIsSafe ptr len = true) ↔ memRefIsSafe ptr len = true :=
    ⟨fun passed => (bufferSafe_word ptr len).mp (fixed_guard ptr small passed nonempty),
      fun safe => .inr (.inr safe)⟩
  have safe : HostSafe mem tf ↔ memRefIsSafe ptr len = true ∧ checkString mem path = true := by
    rw [← bufferSafe_word]
    constructor
    · intro host
      exact ⟨host.buffers _ (buffers ▸ List.mem_singleton_self _) nonempty,
        host.paths path (paths ▸ List.mem_singleton_self path)⟩
    · rintro ⟨buffer, string⟩
      refine ⟨fun ref member _ => ?_, fun other member => ?_⟩
      · rw [buffers] at member
        rwa [List.mem_singleton.mp member]
      · rw [paths] at member
        rwa [List.mem_singleton.mp member]
  rw [guard_iff checked (.inl rfl), paramsError_zero, passes, safe, NullPath, ← checkString_null]
  by_cases null : path = 0
  · subst null
    cases checkString mem 0 <;> simp
  · simp only [null, false_or, false_and, not_false_eq_true, iff_true]
    exact fun passed => ⟨passed.1, passed.2.1⟩

theorem checkIovec_parts (mem : AppMem) (iov : VirtAddr) (num : BitVec 32) :
    checkIovec mem iov num = true ↔ memRefIsSafe iov (16 * num.signExtend 64) = true ∧
      ∀ index < num.toNat, memRefIsSafe (iovBase mem iov index) (iovLen mem iov index) = true := by
  rw [checkIovec, goOn_iff, checkExtent, checkIovecLoop_iff]

theorem hostSafe_vector (buffers : hostBuffers mem tf tf.call = (tf.rsi, 16 * tf.rdx.toNat) ::
      (List.range tf.rdx.toNat).map fun index =>
        (iovBase mem tf.rsi index, (iovLen mem tf.rsi index).toNat))
    (paths : hostPaths tf tf.call = []) :
    HostSafe mem tf ↔ (16 * tf.rdx.toNat ≠ 0 → BufferSafe (tf.rsi, 16 * tf.rdx.toNat)) ∧
      ∀ index < tf.rdx.toNat, iovLen mem tf.rsi index ≠ 0 →
        memRefIsSafe (iovBase mem tf.rsi index) (iovLen mem tf.rsi index) = true := by
  have nonempty (index : Nat) : (iovLen mem tf.rsi index).toNat ≠ 0 ↔ iovLen mem tf.rsi index ≠ 0 :=
    not_congr ⟨BitVec.eq_of_toNat_eq (y := 0), congrArg BitVec.toNat⟩
  have listed : HostSafe mem tf ↔
      ∀ ref ∈ hostBuffers mem tf tf.call, ref.2 ≠ 0 → BufferSafe ref := by
    refine ⟨HostSafe.buffers, fun safe => ⟨safe, fun path member => ?_⟩⟩
    rw [paths] at member
    exact nomatch member
  rw [listed, buffers, List.forall_mem_cons, List.forall_mem_map]
  simp only [List.mem_range, bufferSafe_word, nonempty]

/-- A count that fits the `int` of the check is checked as it is. -/
theorem small_count {iov : VirtAddr} {count : Word} (small : count.toNat < 2 ^ 31)
    (passed : checkIovec mem iov (count.setWidth 32) = true) :
    BufferSafe (iov, 16 * count.toNat) ∧ ∀ index < count.toNat,
      memRefIsSafe (iovBase mem iov index) (iovLen mem iov index) = true := by
  have number : (count.setWidth 32).toNat = count.toNat := by
    rw [BitVec.toNat_setWidth]
    omega
  have plain : (count.setWidth 32).msb = false := by
    rw [BitVec.msb_eq_false_iff_two_mul_lt, number]
    omega
  have size : 16 * (count.setWidth 32).signExtend 64 = BitVec.ofNat 64 (16 * count.toNat) := by
    rw [BitVec.signExtend_eq_setWidth_of_msb_false plain, BitVec.ofNat_mul, ← number, BitVec.ofNat_toNat]
    rfl
  rw [checkIovec_parts, number, size] at passed
  exact ⟨⟨by omega, passed.1⟩, passed.2⟩

theorem vector_call_iff {call : Syscall} (called : tf.call = call)
    (checked : syscallParams mem tf call =
      .checked { err := if checkIovec mem tf.rsi (tf.rdx.setWidth 32) then 0 else negEfault })
    (buffers : hostBuffers mem tf call = (tf.rsi, 16 * tf.rdx.toNat) ::
      (List.range tf.rdx.toNat).map fun index =>
        (iovBase mem tf.rsi index, (iovLen mem tf.rsi index).toNat))
    (paths : hostPaths tf call = []) : ParamsGuard mem tf ↔ ¬ WrongCount mem tf.rsi tf.rdx := by
  subst called
  have fault : negEfault ≠ 0 := by decide
  have error : (if checkIovec mem tf.rsi (tf.rdx.setWidth 32) then (0 : Word) else negEfault) = 0 ↔
      checkIovec mem tf.rsi (tf.rdx.setWidth 32) = true := by
    split <;> simp_all
  rw [guard_iff checked (by dsimp only; split <;> simp), paramsError_zero, hostSafe_vector buffers paths, WrongCount]
  simp only [true_or, true_and, error]
  by_cases small : tf.rdx.toNat < 2 ^ 31
  · refine iff_of_true (fun passed => ?_) fun wrong => absurd wrong.1 (Nat.not_le_of_lt small)
    obtain ⟨array, entries⟩ := small_count small passed
    exact ⟨fun _ => array, fun index below _ => entries index below⟩
  · have large : 2 ^ 31 ≤ tf.rdx.toNat := Nat.le_of_not_lt small
    have nonempty : 16 * tf.rdx.toNat ≠ 0 := by omega
    simp only [large, nonempty, true_and, ne_eq, not_false_eq_true, forall_true_left]
    constructor
    · rintro guarded ⟨passed, exposed | ⟨index, _, below, filled, refused⟩⟩
      · exact exposed (guarded passed).1
      · exact Bool.eq_false_iff.mp refused ((guarded passed).2 index below filled)
    · intro right passed
      have entries := ((checkIovec_parts _ _ _).mp passed).2
      refine ⟨by_contra fun exposed => right ⟨passed, .inl exposed⟩, fun index below filled => ?_⟩
      by_cases counted : index < unsignedLen tf.rdx
      · exact entries index counted
      · by_contra refused
        exact right ⟨passed, .inr ⟨index, Nat.le_of_not_lt counted, below, filled,
          Bool.eq_false_iff.mpr refused⟩⟩

theorem intLen_lt (arg : Word) : intLen arg < 2 ^ 31 := by
  have bound := BitVec.toInt_lt (x := arg.setWidth 32)
  rw [intLen]
  omega

theorem intLen_word {arg : Word} (used : intLen arg ≠ 0) : arg.toNat % 2 ^ 32 ≠ 0 := by
  intro zero
  apply used
  rw [intLen, BitVec.toInt_eq_toNat_cond, BitVec.toNat_setWidth, zero]
  rfl

section Calls

variable {call : Syscall} {ptr : VirtAddr} {len : Size} {used : Nat}

theorem same_call_iff (called : tf.call = call)
    (checked : syscallParams mem tf call = .checked { ptr := ptr, len := len })
    (buffers : hostBuffers mem tf call = [(ptr, len.toNat)]) (paths : hostPaths tf call = []) :
    ParamsGuard mem tf ↔ ¬ NullOver ptr len.toNat := by
  subst called
  exact (buffer_call_iff checked buffers paths).trans (same_length_iff ptr len)

theorem fixed_call_iff (called : tf.call = call)
    (checked : syscallParams mem tf call = .checked { ptr := ptr, len := len })
    (buffers : hostBuffers mem tf call = [(ptr, len.toNat)]) (paths : hostPaths tf call = [])
    (small : len.toNat ≤ appMaxElfVaddr.toNat) : ParamsGuard mem tf ↔ ¬ False := by
  rw [same_call_iff called checked buffers paths]
  exact not_congr (iff_of_false (fun large => Nat.not_lt_of_le small large.2) id)

theorem narrowed_call_iff (called : tf.call = call)
    (checked : syscallParams mem tf call = .checked { ptr := ptr, len := len })
    (buffers : hostBuffers mem tf call = [(ptr, used)]) (paths : hostPaths tf call = [])
    (fits : used < 2 ^ 64) (wide : used ≠ 0 → len ≠ 0) :
    ParamsGuard mem tf ↔ ¬ (NullOver ptr used ∨ WrongLength ptr len used) := by
  subst called
  exact (buffer_call_iff checked buffers paths).trans (buffer_guard_iff fits wide)

end Calls

theorem int_wide {arg : Word} (used : intLen arg ≠ 0) : arg ≠ 0 := by
  rintro rfl
  exact intLen_word used rfl

/-- A product that wraps to 0 has a factor that an `int` reads as 0. -/
theorem product_low {arg odd : Nat} (coprime : Nat.Coprime (2 ^ 32) odd)
    (wrapped : arg * (4 * odd) % 2 ^ 64 = 0) : arg % 2 ^ 32 = 0 := by
  have whole : 4 * 2 ^ 32 ∣ 4 * (arg * odd) := by
    rw [Nat.mul_left_comm]
    exact Nat.dvd_trans ⟨2 ^ 30, by norm_num⟩ (Nat.dvd_of_mod_eq_zero wrapped)
  exact Nat.mod_eq_zero_of_dvd
    (coprime.dvd_of_dvd_mul_right (Nat.dvd_of_mul_dvd_mul_left (by decide) whole))

theorem int_product_wide {arg : Word} (odd : Nat) (coprime : Nat.Coprime (2 ^ 32) odd) (small : odd < 4)
    (used : 4 * odd * intLen arg ≠ 0) : arg * BitVec.ofNat 64 (4 * odd) ≠ 0 := by
  intro zero
  have counted : intLen arg ≠ 0 := fun none => used (by rw [none, Nat.mul_zero])
  have empty : (0 : Word).toNat = 0 := rfl
  have fits : 4 * odd < 2 ^ 64 := by omega
  have value := congrArg BitVec.toNat zero
  rw [BitVec.toNat_mul, BitVec.toNat_ofNat, Nat.mod_eq_of_lt fits, empty] at value
  exact intLen_word counted (product_low coprime value)

/-- For each of the calls, exactly which frames get an unchecked buffer or path past the
checks. -/
theorem buffers_checked_iff (mem : AppMem) (tf : DuneTf) (listed : tf.call ∈ bufferCalls) :
    ParamsGuard mem tf ↔ ¬ Unguarded mem tf tf.call := by
  simp only [bufferCalls, List.mem_cons, List.not_mem_nil, or_false] at listed
  rcases listed with call | call | call | call | call | call | call | call | call | call | call |
    call | call | call | call | call | call | call | call <;> rw [call]
  · exact same_call_iff call rfl rfl rfl
  · exact same_call_iff call rfl rfl rfl
  · refine narrowed_call_iff call rfl rfl rfl (Nat.lt_trans (tf.rdx.setWidth 32).isLt (by decide)) ?_
    rintro used none
    rw [none] at used
    exact used rfl
  · exact narrowed_call_iff call rfl rfl rfl (Nat.lt_trans (intLen_lt tf.rdx) (by decide)) int_wide
  · exact narrowed_call_iff call rfl rfl rfl (Nat.lt_trans (intLen_lt tf.rdx) (by decide)) int_wide
  · exact vector_call_iff call rfl rfl rfl
  · exact vector_call_iff call rfl rfl rfl
  · exact path_call_iff call rfl rfl rfl (by decide) (by decide)
  · exact path_call_iff call rfl rfl rfl (by decide) (by decide)
  · exact fixed_call_iff call rfl rfl rfl (by decide)
  · exact path_call_iff call rfl rfl rfl (by decide) (by decide)
  · exact fixed_call_iff call rfl rfl rfl (by decide)
  · exact same_call_iff call rfl rfl rfl
  · exact fixed_call_iff call rfl rfl rfl (by decide)
  · exact narrowed_call_iff call rfl rfl rfl (Nat.lt_trans (intLen_lt tf.r8) (by decide)) int_wide
  · have bound := intLen_lt tf.rdx
    exact narrowed_call_iff call rfl rfl rfl (by omega) (int_product_wide 3 (by norm_num) (by decide))
  · exact fixed_call_iff call rfl rfl rfl (by decide)
  · have bound := intLen_lt tf.rdi
    refine narrowed_call_iff call rfl rfl rfl (by omega) fun used => ?_
    rw [BitVec.mul_comm]
    exact int_product_wide 1 (by norm_num) (by decide) used
  · exact fixed_call_iff call rfl rfl rfl (by decide)

end Guard

def readFrame (buffer : VirtAddr) (count : Word) : DuneTf :=
  { rax := 0, rdi := 3, rsi := buffer, rdx := count, rcx := 0, r8 := 0 }

theorem buffers_checked_iff_read : ParamsGuard (fun _ => 0) (readFrame 0x400000 4096) := by
  refine (buffers_checked_iff (fun _ => 0) (readFrame 0x400000 4096) (by decide)).mpr ?_
  rintro ⟨null, _⟩
  exact absurd null (by decide)

/-- A read of 2 GB to a null pointer goes to the host. -/
theorem null_read_unchecked :
    syscallCheckParams (fun _ => 0) (readFrame 0 0x80000000) = .passed ∧
      (0, 0x80000000) ∈ hostBuffers (fun _ => 0) (readFrame 0 0x80000000) .read ∧
      memRefIsSafe 0 0x80000000 = false ∧ ¬ ParamsGuard (fun _ => 0) (readFrame 0 0x80000000) := by
  have wrong : ¬ ParamsGuard (fun _ => 0) (readFrame 0 0x80000000) := by
    rw [same_call_iff (show (readFrame 0 0x80000000).call = .read from rfl) rfl rfl rfl]
    exact fun guarded => guarded ⟨rfl, by decide⟩
  exact ⟨rfl, List.mem_singleton_self _, rfl, wrong⟩

end RdmaPaging
