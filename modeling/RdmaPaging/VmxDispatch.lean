import RdmaPaging.VmxLaunch

/-!
The guest's registers through the loop of `vmx_launch`: which exits move its RIP, and which
entry of `dune_syscall_tbl` a VMCALL runs.
-/

namespace RdmaPaging

def nrClone : Nat := 56
def nrFork : Nat := 57
def nrVfork : Nat := 58

/-- What a word of the kernel's memory points to: an entry of the host's own table, one of
the functions of the driver, or whatever else the word happens to hold. -/
inductive SyscallPtr
  | host (number : Nat)
  | duneExit
  | duneExitGroup
  | duneSysClone
  | duneSysFork
  | duneSysVfork
  | stray (address : BitVec 64)
  deriving DecidableEq

/-- The memory from `dune_syscall_tbl` on, word by word. The table is its first
`NUM_SYSCALLS` words. -/
abbrev SyscallMem := Nat → SyscallPtr

def SyscallMem.put (memory : SyscallMem) (index : Nat) (fn : SyscallPtr) : SyscallMem :=
  fun other => if other = index then fn else memory other

/-- The `memcpy` from the host's table. -/
def SyscallMem.copyHost (memory : SyscallMem) : SyscallMem :=
  fun index => if index < numSyscalls.toNat then .host index else memory index

def vmxInitSyscall (memory : SyscallMem) : SyscallMem :=
  ((((memory.copyHost.put nrExit.toNat .duneExit).put nrExitGroup.toNat .duneExitGroup).put
    nrClone .duneSysClone).put nrFork .duneSysFork).put nrVfork .duneSysVfork

inductive VcpuReg
  | rax | rcx | rdx | rbx | rsp | rbp | rsi | rdi | r8 | r9 | r10 | r11 | r12 | r13 | r14 | r15
  deriving DecidableEq

abbrev VcpuRegs := VcpuReg → BitVec 64

structure SyscallArgs where
  rdi : BitVec 64
  rsi : BitVec 64
  rdx : BitVec 64
  r10 : BitVec 64
  r8 : BitVec 64
  r9 : BitVec 64

structure CpuidRegs where
  eax : BitVec 32
  ebx : BitVec 32
  ecx : BitVec 32
  edx : BitVec 32

/-- What a VM exit leaves to be read, the registers of the guest included, and what the
functions return that the loop may call. -/
structure GuestExit where
  reason : BitVec 32
  exitQual : BitVec 32
  intrInfo : BitVec 32
  instructionLen : BitVec 32
  rip : BitVec 64
  regs : VcpuRegs
  doEptFault : Int
  nativeCpuid : BitVec 32 → BitVec 32 → CpuidRegs
  callResult : SyscallPtr → SyscallArgs → BitVec 64

/-- The exit without what `VmExit` leaves out. -/
def GuestExit.seen (info : GuestExit) : VmExit where
  reason := info.reason
  exitQual := info.exitQual
  intrInfo := info.intrInfo
  rax := info.regs .rax
  rdi := info.regs .rdi
  doEptFault := info.doEptFault

structure SyscallCall where
  index : Nat
  fn : SyscallPtr
  args : SyscallArgs
  result : BitVec 64

/-- The VCPU with the guest's registers, and the calls made for it so far. -/
structure DispatchVcpu extends LaunchVcpu where
  regs : VcpuRegs
  rip : BitVec 64
  calls : List SyscallCall

def DispatchVcpu.setReg (vcpu : DispatchVcpu) (reg : VcpuReg) (value : BitVec 64) : DispatchVcpu :=
  { vcpu with regs := fun other => if other = reg then value else vcpu.regs other }

@[simp] theorem DispatchVcpu.setReg_same (vcpu : DispatchVcpu) (reg : VcpuReg) (value : BitVec 64) :
    (vcpu.setReg reg value).regs reg = value :=
  if_pos rfl

def negEinval : BitVec 64 := -22#64

/-- The registers that the `call` of `vmx_handle_syscall` passes on. -/
def DispatchVcpu.args (vcpu : DispatchVcpu) : SyscallArgs where
  rdi := vcpu.regs .rdi
  rsi := vcpu.regs .rsi
  rdx := vcpu.regs .rdx
  r10 := vcpu.regs .r10
  r8 := vcpu.regs .r8
  r9 := vcpu.regs .r9

/-- What a function of the table does to the VCPU that it finds in R11. -/
def SyscallPtr.effect (args : SyscallArgs) : SyscallPtr → LaunchVcpu → LaunchVcpu
  | .duneExit, vcpu => RdmaPaging.duneExit args.rdi vcpu
  | .duneExitGroup, vcpu => RdmaPaging.duneExitGroup args.rdi vcpu
  | _, vcpu => vcpu

/-- The two `exit` functions of the driver return 0. -/
def SyscallPtr.result (info : GuestExit) (args : SyscallArgs) : SyscallPtr → BitVec 64
  | .duneExit => 0
  | .duneExitGroup => 0
  | fn => info.callResult fn args

/-- The assembly of `vmx_handle_syscall`: call through the word at the index RAX. -/
def DispatchVcpu.callEntry (table : SyscallMem) (info : GuestExit) (vcpu : DispatchVcpu) : DispatchVcpu :=
  let index := (vcpu.regs .rax).toNat
  let result := (table index).result info vcpu.args
  { vcpu.setReg .rax result with
    toLaunchVcpu := (table index).effect vcpu.args vcpu.toLaunchVcpu
    calls := vcpu.calls ++ [⟨index, table index, vcpu.args, result⟩] }

/-- `vmx_handle_syscall`. -/
def DispatchVcpu.handleSyscall (table : SyscallMem) (info : GuestExit) (vcpu : DispatchVcpu) : DispatchVcpu :=
  if numSyscalls < vcpu.regs .rax then vcpu.setReg .rax negEinval
  else if vcpu.regs .rax = nrSigaltstack ∨ vcpu.regs .rax = nrIopl then vcpu.setReg .rax negEinval
  else vcpu.callEntry table info

/-- `vmx_handle_cpuid`. -/
def DispatchVcpu.handleCpuid (info : GuestExit) (vcpu : DispatchVcpu) : DispatchVcpu :=
  let cpuid := info.nativeCpuid ((vcpu.regs .rax).setWidth 32) ((vcpu.regs .rcx).setWidth 32)
  (((vcpu.setReg .rax (cpuid.eax.setWidth 64)).setReg .rbx (cpuid.ebx.setWidth 64)).setReg .rcx
    (cpuid.ecx.setWidth 64)).setReg .rdx (cpuid.edx.setWidth 64)

/-- `vmx_step_instruction`. -/
def DispatchVcpu.stepInstruction (info : GuestExit) (vcpu : DispatchVcpu) : DispatchVcpu :=
  { vcpu with rip := vcpu.rip + info.instructionLen.setWidth 64 }

/-- `vmx_run_vcpu`: the guest runs, and its registers are saved. -/
def DispatchVcpu.run (info : GuestExit) (vcpu : DispatchVcpu) : DispatchVcpu :=
  { vcpu with regs := info.regs, rip := info.rip }

/-- The work of the loop on an exit, with the value of `done`. -/
@[grind =] def DispatchVcpu.handleExit (table : SyscallMem) (info : GuestExit) (vcpu : DispatchVcpu) :
    Bool × DispatchVcpu :=
  let vcpu := if info.reason = exitReasonVmcall ∨ info.reason = exitReasonCpuid then
      vcpu.stepInstruction info
    else vcpu
  if info.reason = exitReasonVmcall then (false, vcpu.handleSyscall table info)
  else if info.reason = exitReasonCpuid then (false, vcpu.handleCpuid info)
  else if info.reason = exitReasonEptViolation then
    match vmxHandleEptViolation info.seen vcpu.toLaunchVcpu with
    | (ret, launched) => (ret ≠ 0, { vcpu with toLaunchVcpu := launched })
  else if info.reason = exitReasonExceptionNmi then
    match vmxHandleNmiException info.seen vcpu.toLaunchVcpu with
    | (ret, launched) => (ret ≠ 0, { vcpu with toLaunchVcpu := launched })
  else (info.reason ≠ exitReasonExternalInterrupt, vcpu)

inductive DispatchEvent
  | needResched
  | signalPending (signr : Nat)
  | vmExit (info : GuestExit)

def DispatchEvent.seen : DispatchEvent → LoopEvent
  | .needResched => .needResched
  | .signalPending signr => .signalPending signr
  | .vmExit info => .vmExit info.seen

/-- The VCPU when the loop gets to work on an event. -/
def DispatchEvent.before (vcpu : DispatchVcpu) : DispatchEvent → DispatchVcpu
  | .vmExit info => vcpu.run info
  | _ => vcpu

/-- One turn of the loop, and whether it is the last. -/
@[grind =] def DispatchVcpu.turn (table : SyscallMem) (event : DispatchEvent) (vcpu : DispatchVcpu) :
    Bool × DispatchVcpu :=
  match event with
  | .needResched => (false, vcpu)
  | .signalPending signr =>
      if signr = sigkill then (true, { vcpu with retCode := BitVec.ofInt 32 (enosys * 256) })
      else (false, vcpu)
  | .vmExit info =>
      match (vcpu.run info).handleExit table info with
      | (done, vcpu) => (done || vcpu.shutdown, vcpu)

structure LaunchTurn where
  event : DispatchEvent
  before : DispatchVcpu
  after : DispatchVcpu

/-- The turns of the loop. -/
def dispatchTurns (table : SyscallMem) : List DispatchEvent → DispatchVcpu → List LaunchTurn
  | [], _ => []
  | event :: rest, vcpu =>
      match vcpu.turn table event with
      | (true, next) => [⟨event, event.before vcpu, next⟩]
      | (false, next) => ⟨event, event.before vcpu, next⟩ :: dispatchTurns table rest next

/-! What the loop should do with the registers. -/

/-- A call of one entry that `vmx_init_syscall` filled. -/
structure SyscallCall.Filled (table : SyscallMem) (call : SyscallCall) : Prop where
  below : call.index < numSyscalls.toNat
  notSigaltstack : call.index ≠ nrSigaltstack.toNat
  notIopl : call.index ≠ nrIopl.toNat
  entry : call.fn = table call.index
  filled : ∀ address, call.fn ≠ .stray address

def LaunchTurn.Steps (turn : LaunchTurn) (info : GuestExit) : Prop :=
  turn.after.rip = turn.before.rip + info.instructionLen.setWidth 64

def LaunchTurn.Refuses (turn : LaunchTurn) : Prop :=
  turn.after.regs .rax = negEinval ∧ turn.after.calls = turn.before.calls

def LaunchTurn.Calls (table : SyscallMem) (turn : LaunchTurn) : Prop :=
  ∃ call : SyscallCall, turn.after.calls = turn.before.calls ++ [call] ∧ call.Filled table ∧
    turn.after.regs .rax = call.result

/-- The turn leaves RIP and RAX alone, and calls nothing. -/
def LaunchTurn.Leaves (turn : LaunchTurn) : Prop :=
  turn.after.rip = turn.before.rip ∧ turn.after.regs .rax = turn.before.regs .rax ∧
    turn.after.calls = turn.before.calls

def LaunchTurn.Right (table : SyscallMem) (turn : LaunchTurn) : Prop :=
  match turn.event with
  | .vmExit info =>
      if info.reason = exitReasonVmcall then turn.Steps info ∧ (turn.Refuses ∨ turn.Calls table)
      else if info.reason = exitReasonCpuid then
        turn.Steps info ∧ turn.after.calls = turn.before.calls
      else turn.Leaves
  | _ => turn.Leaves

/-- A VMCALL with the first index behind the table. -/
def DispatchEvent.CallsBehind : DispatchEvent → Prop
  | .vmExit info => info.reason = exitReasonVmcall ∧ info.regs .rax = numSyscalls
  | _ => False

theorem vmxInitSyscall_stray (memory : SyscallMem) (index : Nat) (address : BitVec 64) :
    vmxInitSyscall memory index = .stray address ↔
      numSyscalls.toNat ≤ index ∧ memory index = .stray address := by
  have size : numSyscalls.toNat = 312 := rfl
  simp only [vmxInitSyscall, SyscallMem.put, SyscallMem.copyHost, nrExit, nrExitGroup, nrClone,
    nrFork, nrVfork, BitVec.toNat_ofNat, size]
  grind

section Turns

variable (words : Nat → BitVec 64)

/-- The table of a loaded driver, in a memory that held other words. -/
def duneSyscallTbl : SyscallMem := vmxInitSyscall fun index => .stray (words index)

theorem duneSyscallTbl_filled {index : Nat} :
    (∀ address, duneSyscallTbl words index ≠ .stray address) ↔ index < numSyscalls.toNat := by
  constructor
  · intro filled
    by_contra beyond
    exact filled (words index)
      ((vmxInitSyscall_stray _ index _).mpr ⟨Nat.le_of_not_lt beyond, rfl⟩)
  · intro below address stray
    exact absurd ((vmxInitSyscall_stray _ index address).mp stray).1 (Nat.not_le_of_lt below)

theorem callEntry_calls (table : SyscallMem) (info : GuestExit) (vcpu : DispatchVcpu) :
    (vcpu.callEntry table info).rip = vcpu.rip ∧ ∃ call : SyscallCall,
      (vcpu.callEntry table info).calls = vcpu.calls ++ [call] ∧ call.index = (vcpu.regs .rax).toNat ∧
      call.fn = table call.index ∧ (vcpu.callEntry table info).regs .rax = call.result :=
  ⟨rfl, _, rfl, rfl, rfl, vcpu.setReg_same .rax _⟩

/-- The bound of `vmx_handle_syscall` lets one index too many through. -/
theorem handleSyscall_cases (info : GuestExit) (vcpu : DispatchVcpu) :
    let after := vcpu.handleSyscall (duneSyscallTbl words) info
    after.rip = vcpu.rip ∧
      ((after.regs .rax = negEinval ∧ after.calls = vcpu.calls ∧ vcpu.regs .rax ≠ numSyscalls) ∨
        ∃ call : SyscallCall, after.calls = vcpu.calls ++ [call] ∧ after.regs .rax = call.result ∧
          (call.Filled (duneSyscallTbl words) ↔ vcpu.regs .rax ≠ numSyscalls)) := by
  intro after
  by_cases beyond : numSyscalls < vcpu.regs .rax
  · have refused : after = vcpu.setReg .rax negEinval := if_pos beyond
    rw [refused]
    exact ⟨rfl, .inl ⟨vcpu.setReg_same .rax negEinval, rfl, (BitVec.ne_of_lt beyond).symm⟩⟩
  by_cases unsupported : vcpu.regs .rax = nrSigaltstack ∨ vcpu.regs .rax = nrIopl
  · have refused : after = vcpu.setReg .rax negEinval := by
      simp only [after, DispatchVcpu.handleSyscall, beyond, unsupported, if_true, if_false]
    rw [refused]
    refine ⟨rfl, .inl ⟨vcpu.setReg_same .rax negEinval, rfl, ?_⟩⟩
    rcases unsupported with same | same <;> rw [same] <;> decide
  have called : after = vcpu.callEntry (duneSyscallTbl words) info := by
    simp only [after, DispatchVcpu.handleSyscall, beyond, unsupported, if_false]
  obtain ⟨rip, call, calls, index, entry, result⟩ := callEntry_calls (duneSyscallTbl words) info vcpu
  rw [called]
  refine ⟨rip, .inr ⟨call, calls, result, ?_⟩⟩
  have bound : call.index ≤ numSyscalls.toNat := index ▸ BitVec.not_lt.mp beyond
  constructor
  · intro filled atEnd
    have below := filled.below
    rw [index, atEnd] at below
    exact Nat.lt_irrefl _ below
  · intro inside
    have below : call.index < numSyscalls.toNat :=
      Nat.lt_of_le_of_ne bound fun same => inside (BitVec.eq_of_toNat_eq (index ▸ same))
    refine ⟨below, ?_, ?_, entry, ?_⟩
    · exact fun same => unsupported (.inl (BitVec.eq_of_toNat_eq (index ▸ same)))
    · exact fun same => unsupported (.inr (BitVec.eq_of_toNat_eq (index ▸ same)))
    · rw [entry]
      exact (duneSyscallTbl_filled words).mpr below

theorem turn_vmcall (table : SyscallMem) (info : GuestExit) (vcpu : DispatchVcpu)
    (isVmcall : info.reason = exitReasonVmcall) :
    (vcpu.turn table (.vmExit info)).2 =
      ((vcpu.run info).stepInstruction info).handleSyscall table info := by
  simp only [DispatchVcpu.turn, DispatchVcpu.handleExit, isVmcall, true_or, if_true]

theorem turn_cpuid (table : SyscallMem) (info : GuestExit) (vcpu : DispatchVcpu)
    (isCpuid : info.reason = exitReasonCpuid) :
    (vcpu.turn table (.vmExit info)).2 = ((vcpu.run info).stepInstruction info).handleCpuid info := by
  have notVmcall : exitReasonCpuid ≠ exitReasonVmcall := by decide
  simp only [DispatchVcpu.turn, DispatchVcpu.handleExit, isCpuid, notVmcall, or_true, if_true, if_false]

/-- An exit for another reason changes nothing but the driver's own fields. -/
theorem turn_other (table : SyscallMem) (info : GuestExit) (vcpu : DispatchVcpu)
    (notVmcall : info.reason ≠ exitReasonVmcall) (notCpuid : info.reason ≠ exitReasonCpuid) :
    ∃ launched, (vcpu.turn table (.vmExit info)).2 = { vcpu.run info with toLaunchVcpu := launched } := by
  simp only [DispatchVcpu.turn, DispatchVcpu.handleExit, notVmcall, notCpuid, or_self, if_false]
  by_cases isEpt : info.reason = exitReasonEptViolation
  · simp only [isEpt, if_true]
    exact ⟨_, rfl⟩
  by_cases isNmi : info.reason = exitReasonExceptionNmi
  · simp only [isNmi, if_true]
    exact ⟨_, rfl⟩
  · simp only [isEpt, isNmi, if_false]
    exact ⟨_, rfl⟩

theorem vmcall_right_iff (info : GuestExit) (vcpu : DispatchVcpu)
    (isVmcall : info.reason = exitReasonVmcall) :
    LaunchTurn.Right (duneSyscallTbl words) ⟨.vmExit info, vcpu.run info,
      (vcpu.turn (duneSyscallTbl words) (.vmExit info)).2⟩ ↔ info.regs .rax ≠ numSyscalls := by
  obtain ⟨rip, outcome⟩ := handleSyscall_cases words info ((vcpu.run info).stepInstruction info)
  rw [LaunchTurn.Right, turn_vmcall (duneSyscallTbl words) info vcpu isVmcall]
  simp only [isVmcall, if_true]
  constructor
  · rintro ⟨_, ⟨_, calls⟩ | ⟨call, calls, filled, _⟩⟩
    · rcases outcome with ⟨_, _, inside⟩ | ⟨made, calls', _, _⟩
      · exact inside
      · rw [calls'] at calls
        exact nomatch List.append_right_eq_self.mp calls
    · rcases outcome with ⟨_, _, inside⟩ | ⟨made, calls', _, inside⟩
      · exact inside
      · rw [calls'] at calls
        have same : made = call := List.singleton_inj.mp (List.append_cancel_left calls)
        exact inside.mp (same ▸ filled)
  · intro inside
    refine ⟨rip, ?_⟩
    rcases outcome with ⟨refused, calls, _⟩ | ⟨call, calls, result, filled⟩
    · exact .inl ⟨refused, calls⟩
    · exact .inr ⟨call, calls, filled.mpr inside, result⟩

theorem turn_right_iff (event : DispatchEvent) (vcpu : DispatchVcpu) :
    LaunchTurn.Right (duneSyscallTbl words)
      ⟨event, event.before vcpu, (vcpu.turn (duneSyscallTbl words) event).2⟩ ↔ ¬ event.CallsBehind := by
  cases event with
  | needResched => exact iff_of_true ⟨rfl, rfl, rfl⟩ id
  | signalPending signr =>
      refine iff_of_true ?_ id
      simp only [DispatchVcpu.turn]
      split <;> exact ⟨rfl, rfl, rfl⟩
  | vmExit info =>
      by_cases isVmcall : info.reason = exitReasonVmcall
      · rw [DispatchEvent.CallsBehind, isVmcall]
        simp only [true_and]
        exact vmcall_right_iff words info vcpu isVmcall
      refine iff_of_true ?_ fun behind => isVmcall behind.1
      rw [LaunchTurn.Right]
      simp only [isVmcall, if_false]
      by_cases isCpuid : info.reason = exitReasonCpuid
      · rw [turn_cpuid (duneSyscallTbl words) info vcpu isCpuid]
        simp only [isCpuid, if_true]
        exact ⟨rfl, rfl⟩
      · obtain ⟨launched, turned⟩ := turn_other (duneSyscallTbl words) info vcpu isVmcall isCpuid
        simp only [isCpuid, if_false, turned]
        exact ⟨rfl, rfl, rfl⟩

theorem forall_turns (property : LaunchTurn → Prop) (table : SyscallMem) (event : DispatchEvent)
    (rest : List DispatchEvent) (vcpu : DispatchVcpu) :
    (∀ turn ∈ dispatchTurns table (event :: rest) vcpu, property turn) ↔
      property ⟨event, event.before vcpu, (vcpu.turn table event).2⟩ ∧
        ((vcpu.turn table event).1 = false →
          ∀ turn ∈ dispatchTurns table rest (vcpu.turn table event).2, property turn) := by
  rcases turned : vcpu.turn table event with ⟨done, next⟩
  cases done <;> simp [dispatchTurns, turned]

/-- The loop treats the registers as it should in every turn of a run exactly when no
VMCALL of the run comes with the index `NUM_SYSCALLS`. -/
theorem exits_dispatch_filled_iff (events : List DispatchEvent) (vcpu : DispatchVcpu) :
    (∀ turn ∈ dispatchTurns (duneSyscallTbl words) events vcpu, turn.Right (duneSyscallTbl words)) ↔
      ∀ turn ∈ dispatchTurns (duneSyscallTbl words) events vcpu, ¬ turn.event.CallsBehind := by
  induction events generalizing vcpu with
  | nil => exact iff_of_true (fun _ => (nomatch ·)) fun _ => (nomatch ·)
  | cons event rest ih =>
      rw [forall_turns, forall_turns, turn_right_iff words event vcpu]
      exact and_congr_right fun _ => imp_congr_right fun _ => ih _

theorem duneSyscallTbl_effect (index : Nat) (args : SyscallArgs) (vcpu : LaunchVcpu) :
    (duneSyscallTbl words index).effect args vcpu =
      if index = nrExit.toNat then duneExit args.rdi vcpu
      else if index = nrExitGroup.toNat then duneExitGroup args.rdi vcpu
      else vcpu := by
  by_cases isExit : index = nrExit.toNat
  · rw [if_pos isExit, isExit]
    rfl
  by_cases isGroup : index = nrExitGroup.toNat
  · rw [if_neg isExit, if_pos isGroup, isGroup]
    rfl
  rw [if_neg isExit, if_neg isGroup]
  simp only [duneSyscallTbl, vmxInitSyscall, SyscallMem.put, SyscallMem.copyHost, isExit, isGroup, if_false]
  split
  · rfl
  split
  · rfl
  split
  · rfl
  split <;> rfl

theorem handleSyscall_launch (info : GuestExit) (vcpu : DispatchVcpu) :
    (vcpu.handleSyscall (duneSyscallTbl words) info).toLaunchVcpu =
      vmxHandleSyscall (vcpu.regs .rax) (vcpu.regs .rdi) vcpu.toLaunchVcpu := by
  rw [DispatchVcpu.handleSyscall, vmxHandleSyscall]
  split
  · rfl
  split
  · rfl
  · rw [DispatchVcpu.callEntry, duneSyscallTbl_effect]
    simp only [BitVec.toNat_inj]
    rfl

theorem handleExit_launch (info : GuestExit) (vcpu : DispatchVcpu) :
    handleExit info.seen vcpu.toLaunchVcpu = (((vcpu.run info).handleExit (duneSyscallTbl words) info).1,
      ((vcpu.run info).handleExit (duneSyscallTbl words) info).2.toLaunchVcpu) := by
  have reason : info.seen.reason = info.reason := rfl
  rw [handleExit, DispatchVcpu.handleExit, reason]
  by_cases isVmcall : info.reason = exitReasonVmcall
  · simp only [isVmcall, true_or, if_true, handleSyscall_launch]
    rfl
  by_cases isCpuid : info.reason = exitReasonCpuid
  · simp only [isCpuid, or_true, if_true]
    rfl
  simp only [isVmcall, isCpuid, or_self, if_false]
  split
  · rfl
  split <;> rfl

/-- What `vmx_launch` keeps for its caller goes through the turns as the loop has it. -/
theorem turn_launchTurn (event : DispatchEvent) (vcpu : DispatchVcpu) :
    launchTurn event.seen vcpu.toLaunchVcpu = ((vcpu.turn (duneSyscallTbl words) event).1,
      (vcpu.turn (duneSyscallTbl words) event).2.toLaunchVcpu) := by
  cases event with
  | needResched => rfl
  | signalPending signr =>
      simp only [DispatchEvent.seen, launchTurn, DispatchVcpu.turn]
      split <;> rfl
  | vmExit info =>
      simp only [DispatchEvent.seen, launchTurn, DispatchVcpu.turn, handleExit_launch words info vcpu]

end Turns

/-- A VMCALL with the index 312. -/
def pastTableExit : GuestExit where
  reason := exitReasonVmcall
  exitQual := 0
  intrInfo := 0
  instructionLen := 3
  rip := 0x400000
  regs := fun reg => if reg = .rax then 312 else 0
  doEptFault := 0
  nativeCpuid := fun _ _ => ⟨0, 0, 0, 0⟩
  callResult := fun _ _ => 0

def freshDispatch : DispatchVcpu := ⟨runningVcpu, fun _ => 0, 0, []⟩

/-- The index 312 passes the check, and the loop calls what lies behind the table. -/
theorem vmcall_past_table :
    let table := duneSyscallTbl fun _ => 0xbad
    let turns := dispatchTurns table [.vmExit pastTableExit] freshDispatch
    (turns.flatMap fun turn => turn.after.calls.map SyscallCall.fn) = [.stray 0xbad] ∧
      ¬ ∀ turn ∈ turns, turn.Right table := by
  refine ⟨rfl, fun right => ?_⟩
  have first := ((forall_turns _ _ _ _ _).mp right).1
  exact (turn_right_iff _ _ _).mp first ⟨rfl, rfl⟩

end RdmaPaging
