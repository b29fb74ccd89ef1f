import RdmaPaging.VmCore

/-!
The main loop of a Dune process, `vmx_launch`, and what its caller reports to the parent:
the `DUNE_ENTER` ioctl hands the return code to `__dune_enter`, which passes it to the
`exit` system call. The processor, the signal queue and the host's own handlers decide
what each turn of the loop meets.
-/

namespace RdmaPaging

def exitReasonExceptionNmi : BitVec 32 := 0#32
def exitReasonExternalInterrupt : BitVec 32 := 1#32
def exitReasonCpuid : BitVec 32 := 10#32
def exitReasonVmcall : BitVec 32 := 18#32
def exitReasonEptViolation : BitVec 32 := 48#32

def intrInfoIntrTypeMask : BitVec 32 := 0x700#32
def intrTypeNmiIntr : BitVec 32 := 0x200#32

def numSyscalls : BitVec 64 := 312#64
def nrExit : BitVec 64 := 60#64
def nrSigaltstack : BitVec 64 := 131#64
def nrIopl : BitVec 64 := 172#64
def nrExitGroup : BitVec 64 := 231#64

def sigkill : Nat := 9

def eio : Int := 5
def enosys : Int := 38
def vmxEinval : Int := 22

/-- What a VM exit leaves to be read: the value of `vmx_run_vcpu`, the fields of the VMCS,
the guest's registers, and what `vmx_do_ept_fault` returns if it is called. -/
structure VmExit where
  reason : BitVec 32
  exitQual : BitVec 32
  intrInfo : BitVec 32
  rax : BitVec 64
  rdi : BitVec 64
  doEptFault : Int

/-- What one turn of the loop meets: a reschedule, a pending signal with the number that
`dequeue_signal` returns, or a VM exit. -/
inductive LoopEvent
  | needResched
  | signalPending (signr : Nat)
  | vmExit (info : VmExit)

/-- The fields of `struct vmx_vcpu` that outlive a turn. -/
structure LaunchVcpu where
  shutdown : Bool
  retCode : BitVec 32
  deriving DecidableEq

/-- `dune_exit`. The argument is an `int`. -/
def duneExit (errorCode : BitVec 64) (_ : LaunchVcpu) : LaunchVcpu where
  shutdown := true
  retCode := errorCode.setWidth 32

def duneExitGroup (errorCode : BitVec 64) (vcpu : LaunchVcpu) : LaunchVcpu :=
  duneExit errorCode vcpu

/-- `vmx_handle_syscall`. The host's own system calls do not know the VCPU. -/
def vmxHandleSyscall (rax rdi : BitVec 64) (vcpu : LaunchVcpu) : LaunchVcpu :=
  if numSyscalls < rax then vcpu
  else if rax = nrSigaltstack ∨ rax = nrIopl then vcpu
  else if rax = nrExit then duneExit rdi vcpu
  else if rax = nrExitGroup then duneExitGroup rdi vcpu
  else vcpu

def exceedsGaw (info : VmExit) : Bool := info.exitQual &&& 0x40#32 ≠ 0

def linearValid (info : VmExit) : Bool := info.exitQual &&& 0x80#32 ≠ 0

def vmxHandleEptViolation (info : VmExit) (vcpu : LaunchVcpu) : Int × LaunchVcpu :=
  if exceedsGaw info then (-vmxEinval, vcpu)
  else if ¬ linearValid info then (-vmxEinval, vcpu)
  else if info.doEptFault ≠ 0 then
    (info.doEptFault, { vcpu with retCode := BitVec.ofInt 32 (efault * 256) })
  else (0, vcpu)

def vmxHandleNmiException (info : VmExit) (vcpu : LaunchVcpu) : Int × LaunchVcpu :=
  if info.intrInfo &&& intrInfoIntrTypeMask = intrTypeNmiIntr then (0, vcpu)
  else (-eio, { vcpu with retCode := BitVec.ofInt 32 (efault * 256) })

/-- The dispatch on the exit reason, with the value of `done`. -/
def handleExit (info : VmExit) (vcpu : LaunchVcpu) : Bool × LaunchVcpu :=
  if info.reason = exitReasonVmcall then (false, vmxHandleSyscall info.rax info.rdi vcpu)
  else if info.reason = exitReasonCpuid then (false, vcpu)
  else if info.reason = exitReasonEptViolation then
    match vmxHandleEptViolation info vcpu with
    | (ret, vcpu) => (ret ≠ 0, vcpu)
  else if info.reason = exitReasonExceptionNmi then
    match vmxHandleNmiException info vcpu with
    | (ret, vcpu) => (ret ≠ 0, vcpu)
  else (info.reason ≠ exitReasonExternalInterrupt, vcpu)

/-- One turn of the loop, and whether it is the last. -/
def launchTurn (event : LoopEvent) (vcpu : LaunchVcpu) : Bool × LaunchVcpu :=
  match event with
  | .needResched => (false, vcpu)
  | .signalPending signr =>
      if signr = sigkill then (true, { vcpu with retCode := BitVec.ofInt 32 (enosys * 256) })
      else (false, vcpu)
  | .vmExit info =>
      match handleExit info vcpu with
      | (done, vcpu) => (done || vcpu.shutdown, vcpu)

/-- The loop. The result is what it writes to `ret_code`, and nothing while it goes on. -/
def launchLoop : List LoopEvent → LaunchVcpu → Option (BitVec 64)
  | [], _ => none
  | event :: rest, vcpu =>
      match launchTurn event vcpu with
      | (true, vcpu) => some (vcpu.retCode.signExtend 64)
      | (false, vcpu) => launchLoop rest vcpu

/-- `vmx_launch` once the VCPU is created, with all its fields zero. -/
def vmxLaunch (events : List LoopEvent) : Option (BitVec 64) :=
  launchLoop events ⟨false, 0#32⟩

/-- The exit status of the process: `__dune_enter` passes the field `ret` to `exit`, which
keeps the low 8 bits. -/
def exitStatus (ret : BitVec 64) : Nat := ret.toNat % 256

/-! Why the loop ends, read off the events alone. -/

inductive LaunchEnd
  | guestExit (argument : BitVec 64)
  | killed
  | eptViolation
  | exception
  | unhandledExit
  deriving DecidableEq

def eptRejected (info : VmExit) : Bool :=
  exceedsGaw info || !linearValid info || info.doEptFault ≠ 0

def LoopEvent.end? : LoopEvent → Option LaunchEnd
  | .needResched => none
  | .signalPending signr => if signr = sigkill then some .killed else none
  | .vmExit info =>
      if info.reason = exitReasonVmcall then
        if info.rax = nrExit ∨ info.rax = nrExitGroup then some (.guestExit info.rdi) else none
      else if info.reason = exitReasonEptViolation then
        if eptRejected info then some .eptViolation else none
      else if info.reason = exitReasonExceptionNmi then
        if info.intrInfo &&& intrInfoIntrTypeMask = intrTypeNmiIntr then none else some .exception
      else if info.reason = exitReasonCpuid ∨ info.reason = exitReasonExternalInterrupt then none
      else some .unhandledExit

/-- The status that the parent should see. -/
def StatusFits : LaunchEnd → Nat → Prop
  | .guestExit argument, status => status = argument.toNat % 256
  | _, status => status ≠ 0

theorem exitStatus_guest (argument : BitVec 64) :
    exitStatus ((argument.setWidth 32).signExtend 64) = argument.toNat % 256 := by
  rw [exitStatus, BitVec.toNat_signExtend]
  simp only [BitVec.toNat_setWidth]
  split <;> omega

theorem exitStatus_shifted (errno : Int) :
    exitStatus ((BitVec.ofInt 32 (errno * 256)).signExtend 64) = 0 := by
  rw [exitStatus, BitVec.toNat_signExtend]
  simp only [BitVec.toNat_setWidth, BitVec.toNat_ofInt]
  split <;> omega

/-- What a VCPU looks like as long as the loop goes on. -/
def runningVcpu : LaunchVcpu := ⟨false, 0#32⟩

/-- How a turn that ends the loop leaves the VCPU. -/
def endVcpu (info : VmExit) : LaunchEnd → LaunchVcpu
  | .guestExit argument => ⟨true, argument.setWidth 32⟩
  | .killed => ⟨false, BitVec.ofInt 32 (enosys * 256)⟩
  | .eptViolation => if exceedsGaw info || !linearValid info then runningVcpu
      else ⟨false, BitVec.ofInt 32 (efault * 256)⟩
  | .exception => ⟨false, BitVec.ofInt 32 (efault * 256)⟩
  | .unhandledExit => runningVcpu

theorem vmxHandleSyscall_running (rax rdi : BitVec 64) :
    vmxHandleSyscall rax rdi runningVcpu =
      if rax = nrExit ∨ rax = nrExitGroup then ⟨true, rdi.setWidth 32⟩ else runningVcpu := by
  by_cases isExit : rax = nrExit
  · subst isExit
    rfl
  · by_cases isGroup : rax = nrExitGroup
    · subst isGroup
      rfl
    · simp only [vmxHandleSyscall, isExit, isGroup, or_self, if_false, ite_self]

theorem handleExit_running (info : VmExit) :
    match LoopEvent.end? (.vmExit info) with
    | none => launchTurn (.vmExit info) runningVcpu = (false, runningVcpu)
    | some reason => launchTurn (.vmExit info) runningVcpu = (true, endVcpu info reason) := by
  have unshut : runningVcpu.shutdown = false := rfl
  by_cases isVmcall : info.reason = exitReasonVmcall
  · simp only [LoopEvent.end?, launchTurn, handleExit, isVmcall, if_true, vmxHandleSyscall_running]
    by_cases exits : info.rax = nrExit ∨ info.rax = nrExitGroup
    · simp [exits, endVcpu]
    · simp [exits, unshut]
  · by_cases isEpt : info.reason = exitReasonEptViolation
    · have notCpuid : exitReasonEptViolation ≠ exitReasonCpuid := by decide
      have notVmcall : exitReasonEptViolation ≠ exitReasonVmcall := by decide
      simp only [LoopEvent.end?, launchTurn, handleExit, isEpt, if_true, if_false, notCpuid,
        notVmcall, vmxHandleEptViolation, eptRejected, endVcpu]
      by_cases exceeds : exceedsGaw info = true
      · simp [exceeds, unshut, vmxEinval]
      · by_cases linear : linearValid info = true
        · by_cases resolved : info.doEptFault = 0
          · simp [exceeds, linear, resolved, unshut]
          · simp [exceeds, linear, resolved, unshut]
        · simp [exceeds, linear, unshut, vmxEinval]
    · by_cases isNmi : info.reason = exitReasonExceptionNmi
      · have notCpuid : exitReasonExceptionNmi ≠ exitReasonCpuid := by decide
        have notVmcall : exitReasonExceptionNmi ≠ exitReasonVmcall := by decide
        have notEpt : exitReasonExceptionNmi ≠ exitReasonEptViolation := by decide
        simp only [LoopEvent.end?, launchTurn, handleExit, isNmi, if_true, if_false, notCpuid,
          notVmcall, notEpt, vmxHandleNmiException, endVcpu]
        by_cases handled : info.intrInfo &&& intrInfoIntrTypeMask = intrTypeNmiIntr
        · simp [handled, unshut]
        · simp [handled, eio, runningVcpu]
      · simp only [LoopEvent.end?, launchTurn, handleExit, isVmcall, isEpt, isNmi, if_false, endVcpu]
        by_cases isCpuid : info.reason = exitReasonCpuid
        · simp [isCpuid, unshut]
        · by_cases isInterrupt : info.reason = exitReasonExternalInterrupt
          · simp [isInterrupt, unshut]
          · simp [isCpuid, isInterrupt, unshut]

theorem launchTurn_running (event : LoopEvent) :
    match event.end? with
    | none => launchTurn event runningVcpu = (false, runningVcpu)
    | some reason => ∃ info, launchTurn event runningVcpu = (true, endVcpu info reason) := by
  cases event with
  | needResched => rfl
  | signalPending signr =>
      by_cases kill : signr = sigkill
      · subst kill
        exact ⟨⟨0, 0, 0, 0, 0, 0⟩, rfl⟩
      · simp [LoopEvent.end?, launchTurn, kill]
  | vmExit info =>
      have turn := handleExit_running info
      split at turn
      · exact turn
      · exact ⟨info, turn⟩

/-- Every end but the guest's own reports success. -/
theorem statusFits_endVcpu (info : VmExit) (reason : LaunchEnd) :
    StatusFits reason (exitStatus ((endVcpu info reason).retCode.signExtend 64)) ↔
      ∃ argument, reason = .guestExit argument := by
  have blank : exitStatus (runningVcpu.retCode.signExtend 64) = 0 := by decide
  cases reason with
  | guestExit argument => simp [StatusFits, endVcpu, exitStatus_guest]
  | killed => simp [StatusFits, endVcpu, exitStatus_shifted]
  | eptViolation =>
      simp only [StatusFits, endVcpu]
      split <;> simp [blank, exitStatus_shifted]
  | exception => simp [StatusFits, endVcpu, exitStatus_shifted]
  | unhandledExit => simp [StatusFits, endVcpu, blank]

/-- The loop ends at the first event that ends it, and the parent is told what it should be
exactly when that is the guest's own `exit` or `exit_group`. -/
theorem launch_status_iff (events : List LoopEvent) :
    match events.findSome? LoopEvent.end? with
    | none => vmxLaunch events = none
    | some reason => ∃ ret, vmxLaunch events = some ret ∧
        (StatusFits reason (exitStatus ret) ↔ ∃ argument, reason = .guestExit argument) := by
  show match events.findSome? LoopEvent.end? with
    | none => launchLoop events runningVcpu = none
    | some reason => ∃ ret, launchLoop events runningVcpu = some ret ∧
        (StatusFits reason (exitStatus ret) ↔ ∃ argument, reason = .guestExit argument)
  induction events with
  | nil => rfl
  | cons event rest ih =>
      have turn := launchTurn_running event
      rw [List.findSome?_cons]
      rcases ends : event.end? with _ | reason
      · rw [ends] at turn
        simp only [launchLoop, turn]
        exact ih
      · rw [ends] at turn
        obtain ⟨info, turned⟩ := turn
        refine ⟨(endVcpu info reason).retCode.signExtend 64, ?_, statusFits_endVcpu info reason⟩
        simp only [launchLoop, turned]

/-- A process killed by SIGKILL reports success. -/
theorem sigkill_reports_success :
    [LoopEvent.signalPending sigkill].findSome? LoopEvent.end? = some .killed ∧
      vmxLaunch [.signalPending sigkill] = some 0x2600#64 ∧ exitStatus 0x2600#64 = 0 ∧
      ¬ StatusFits .killed (exitStatus 0x2600#64) :=
  ⟨rfl, rfl, rfl, fun nonzero => nonzero rfl⟩

end RdmaPaging
