import Mathlib.Logic.Relation
import RdmaPaging.UserMode
import RdmaPaging.VmPages

/-!
Runs from a call of `dune_jump_to_user` to its return: the user, its traps and system calls, and their
handlers, in any order and in one another. A way into a handler or out of it is one step: interrupts inside
of it are not modelled.
-/

namespace RdmaPaging

open WordMemory

/-- One step while a call of `dune_jump_to_user` lasts. The user and handlers do whatever they like to the
registers and the memory, but neither writes the caller's frame, the thread pointer of its ring or the private
area, of which handlers may set the user's thread pointer. -/
inductive UserStep (code : UserCode) (frame : BitVec 64) : CpuState → CpuState → Prop
  | user {cpu next : CpuState} (ring : cpu.inUser = true) (stays : next.inUser = true)
      (percpu : next.percpu = cpu.percpu) (fsBase : next.fsBase = cpu.fsBase)
      (kept : CallerKept frame cpu.mem next.mem) : UserStep code frame cpu next
  | handler {cpu next : CpuState} (userBase : BitVec 64) (ring : cpu.inUser = false)
      (stays : next.inUser = false) (percpu : next.percpu = { cpu.percpu with ufsBase := userBase })
      (fsBase : next.fsBase = cpu.fsBase) (kept : CallerKept frame cpu.mem next.mem) :
      UserStep code frame cpu next
  -- the gate's stack is the one below the caller's frame, or stands elsewhere
  | trap {cpu : CpuState} (vector : Fin 256) (error : BitVec 64)
      (stack : cpu.gateStack (setupIdt code.toDuneCode vector) = cpu.percpu.trapStack ∨
        BlocksApart frame 184 (cpu.trapFrame code.toDuneCode vector - 8) 176) :
      UserStep code frame cpu (trapEntry code.toDuneCode vector error cpu)
  | trapReturn {cpu : CpuState} (ring : cpu.inUser = false) (rip : cpu.rip = code.intrReturn) :
      UserStep code frame cpu (trapExit cpu)
  | syscall {cpu entered : CpuState} (ring : cpu.inUser = true)
      (path : duneSyscall code (cpu.syscall code) = .handler entered) : UserStep code frame cpu entered
  | syscallReturn {cpu : CpuState} (ring : cpu.inUser = false) (rip : cpu.rip = code.syscallReturn) :
      UserStep code frame cpu (syscallExit cpu)

variable {cpu caller : CpuState} {code : UserCode} {addr frame : BitVec 64}

/-- What holds in every state while a call of `dune_jump_to_user` lasts. -/
structure UserInv (caller cpu : CpuState) : Prop where
  fsBase : cpu.fsBase = cpu.threadBase
  mode : cpu.percpu.inUsermode = if cpu.inUser then 1 else 0
  kfsBase : cpu.percpu.kfsBase = caller.percpu.kfsBase
  trapStack : cpu.percpu.trapStack = caller.rsp - tfAlign
  kept : CallerKept (caller.rsp - tfAlign) caller.callerMem cpu.mem

theorem CallerKept.trans {first second third : Bytes} (before : CallerKept frame first second)
    (after : CallerKept frame second third) : CallerKept frame first third :=
  fun addr inside => (after addr inside).trans (before addr inside)

/-- Writes to a stack below the frame of the caller. -/
theorem below_frame {top : BitVec 64} (aligned : top = frame ∨ top = frame &&& ~~~ 0xf)
    (inside : (addr - frame).toNat < 184) : 176 ≤ (addr - (top - tfEnd - 8)).toNat := by
  have gap : (frame - top).toNat < 16 := by
    rcases aligned with rfl | rfl
    · rw [sub_self]
      decide
    · have mask : (~~~ 0xf : BitVec 64).toNat = (2 ^ 60 - 1) * 2 ^ 4 := by decide
      have bound := frame.isLt
      rw [BitVec.toNat_sub, BitVec.toNat_and, mask, fieldMask_and]
      omega
  have split : addr - (top - tfEnd - 8) = addr - frame + (frame - top) + (tfEnd + 8) := by ring
  have size : (tfEnd + 8).toNat = 176 := rfl
  rw [split, BitVec.toNat_add, BitVec.toNat_add, size]
  omega

theorem UserStarts.inv {start : CpuState} (starts : UserStarts caller start) : UserInv caller start := by
  have user : start.inUser = true := by
    rw [CpuState.inUser, starts.cs]
    decide
  refine ⟨?_, ?_, ?_, ?_, starts.kept⟩
  · rw [threadBase_user user, starts.fsBase, starts.percpu]
  · rw [if_pos user, starts.percpu]
  · rw [starts.percpu]
  · rw [starts.percpu]

section Steps

variable {next : CpuState} (inv : UserInv caller cpu)

include inv

theorem UserInv.userMode (user : cpu.inUser = true) : cpu.percpu.inUsermode = 1 := by
  rw [inv.mode, if_pos user]

theorem UserInv.kernelMode (kernel : cpu.inUser = false) : cpu.percpu.inUsermode = 0 := by
  rw [inv.mode, kernel, if_neg Bool.false_ne_true]

theorem UserInv.kernelBase (kernel : cpu.inUser = false) : cpu.fsBase = cpu.percpu.kfsBase :=
  inv.fsBase.trans (threadBase_kernel kernel)

/-- A step to ring 3. -/
theorem UserInv.toUser (user : next.inUser = true) (fsBase : next.fsBase = next.percpu.ufsBase)
    (mode : next.percpu.inUsermode = 1) (kfsBase : next.percpu.kfsBase = cpu.percpu.kfsBase)
    (trapStack : next.percpu.trapStack = cpu.percpu.trapStack)
    (kept : CallerKept (caller.rsp - tfAlign) cpu.mem next.mem) : UserInv caller next := by
  refine ⟨?_, ?_, kfsBase.trans inv.kfsBase, trapStack.trans inv.trapStack, inv.kept.trans kept⟩
  · rw [threadBase_user user, fsBase]
  · rw [if_pos user, mode]

/-- A step to ring 0. -/
theorem UserInv.toKernel (kernel : next.inUser = false) (fsBase : next.fsBase = next.percpu.kfsBase)
    (mode : next.percpu.inUsermode = 0) (kfsBase : next.percpu.kfsBase = cpu.percpu.kfsBase)
    (trapStack : next.percpu.trapStack = cpu.percpu.trapStack)
    (kept : CallerKept (caller.rsp - tfAlign) cpu.mem next.mem) : UserInv caller next := by
  refine ⟨?_, ?_, kfsBase.trans inv.kfsBase, trapStack.trans inv.trapStack, inv.kept.trans kept⟩
  · rw [threadBase_kernel kernel, fsBase]
  · rw [kernel, if_neg Bool.false_ne_true, mode]

theorem UserInv.user (ring : cpu.inUser = true) (stays : next.inUser = true)
    (percpu : next.percpu = cpu.percpu) (fsBase : next.fsBase = cpu.fsBase)
    (kept : CallerKept (caller.rsp - tfAlign) cpu.mem next.mem) : UserInv caller next := by
  have base : next.fsBase = next.percpu.ufsBase := by
    rw [fsBase, percpu, inv.fsBase, threadBase_user ring]
  have mode : next.percpu.inUsermode = 1 := by rw [percpu, inv.userMode ring]
  exact inv.toUser stays base mode (by rw [percpu]) (by rw [percpu]) kept

theorem UserInv.handler {userBase : BitVec 64} (ring : cpu.inUser = false) (stays : next.inUser = false)
    (percpu : next.percpu = { cpu.percpu with ufsBase := userBase }) (fsBase : next.fsBase = cpu.fsBase)
    (kept : CallerKept (caller.rsp - tfAlign) cpu.mem next.mem) : UserInv caller next := by
  have base : next.fsBase = next.percpu.kfsBase := by rw [fsBase, percpu, inv.kernelBase ring]
  have mode : next.percpu.inUsermode = 0 := by rw [percpu, inv.kernelMode ring]
  exact inv.toKernel stays base mode (by rw [percpu]) (by rw [percpu]) kept

theorem UserInv.trap {vector : Fin 256} {error : BitVec 64}
    (stack : cpu.gateStack (setupIdt code.toDuneCode vector) = cpu.percpu.trapStack ∨
      BlocksApart (caller.rsp - tfAlign) 184 (cpu.trapFrame code.toDuneCode vector - 8) 176) :
    UserInv caller (trapEntry code.toDuneCode vector error cpu) := by
  have taken := @trapEntry_taken cpu code.toDuneCode vector error inv.fsBase
  have area := taken.percpu
  have mode : (trapEntry code.toDuneCode vector error cpu).percpu.inUsermode = 0 := by
    rw [area, DunePercpu.switch]
    cases user : cpu.inUser with
    | false => exact inv.kernelMode user
    | true => rfl
  refine inv.toKernel taken.ring taken.fsBase mode (by rw [area]; rfl) (by rw [area]; rfl) ?_
  intro addr inside
  refine taken.outside addr ?_
  rcases stack with own | apart
  · rw [CpuState.trapFrame, own, inv.trapStack]
    exact below_frame (.inr rfl) inside
  · exact apart.outside inside

theorem UserInv.trapReturn (ring : cpu.inUser = false) : UserInv caller (trapExit cpu) := by
  obtain ⟨_, mem, percpu, fsBase⟩ := trapExit_resumes rfl (inv.kernelBase ring)
  refine ⟨fsBase, ?_, ?_, ?_, ?_⟩
  · rw [percpu, DunePercpu.switch, inv.kernelMode ring]
  · rw [percpu]
    exact inv.kfsBase
  · rw [percpu]
    exact inv.trapStack
  · rw [mem]
    exact inv.kept

theorem UserInv.syscall {entered : CpuState} (ring : cpu.inUser = true)
    (path : duneSyscall code (cpu.syscall code) = .handler entered) : UserInv caller entered := by
  obtain ⟨handled, isHandled, taken⟩ := @duneSyscall_taken cpu code ring inv.fsBase (inv.userMode ring)
  obtain rfl : handled = entered := by
    rw [isHandled] at path
    exact SyscallPath.handler.inj path
  have area := taken.percpu
  refine inv.toKernel taken.ring taken.fsBase (by rw [area]) (by rw [area]) (by rw [area]) ?_
  intro addr inside
  refine taken.outside addr ?_
  rw [CpuState.syscallTf, inv.trapStack]
  exact below_frame (.inl rfl) inside

theorem UserInv.syscallReturn (ring : cpu.inUser = false) : UserInv caller (syscallExit cpu) := by
  obtain ⟨user, fsBase, percpu, mem⟩ := syscallExit_thread (inv.kernelBase ring)
  have base : (syscallExit cpu).fsBase = (syscallExit cpu).percpu.ufsBase := by rw [fsBase, percpu]
  refine inv.toUser user base (by rw [percpu]) (by rw [percpu]) (by rw [percpu]) ?_
  intro addr _
  rw [mem]

theorem UserInv.step (step : UserStep code (caller.rsp - tfAlign) cpu next) : UserInv caller next := by
  cases step with
  | user ring stays percpu fsBase kept => exact inv.user ring stays percpu fsBase kept
  | handler userBase ring stays percpu fsBase kept => exact inv.handler ring stays percpu fsBase kept
  | trap vector error stack => exact inv.trap stack
  | trapReturn ring rip => exact inv.trapReturn ring
  | syscall ring path => exact inv.syscall ring path
  | syscallReturn ring rip => exact inv.syscallReturn ring

theorem UserInv.run (run : Relation.ReflTransGen (UserStep code (caller.rsp - tfAlign)) cpu next) :
    UserInv caller next := by
  induction run with
  | refl => exact inv
  | tail _ step ih => exact ih.step step

end Steps

/-! Back to the caller. -/

/-- The words that `dune_ret_from_user` puts in the frame. -/
def retWord (code : UserCode) (value frame : BitVec 64) : FrameSlot → BitVec 64
  | .reg .rax => value
  | .reg _ => frame
  | .rip => code.retFromUserFinish
  | .cs => gdKt.setWidth 64
  | .ss => gdKd.setWidth 64
  | .err | .rflags => 0

def retSlots : List FrameSlot := [.reg .rax, .rip, .cs, .ss, .reg .rsp]

theorem retFromUserFrame_eq (code : UserCode) (cpu : CpuState) :
    (retFromUserFrame code cpu).regs .rdi = cpu.percpu.trapStack ∧
      (retFromUserFrame code cpu).mem = saveAll FrameSlot.offset
        (retWord code (cpu.regs .rdi) cpu.percpu.trapStack) cpu.percpu.trapStack retSlots cpu.mem ∧
      (retFromUserFrame code cpu).percpu = cpu.percpu ∧ (retFromUserFrame code cpu).fsBase = cpu.fsBase := by
  refine ⟨?_, ?_, rfl, rfl⟩
  · simp [retFromUserFrame, CpuState.setReg, Function.update_of_ne]
  · simp [retFromUserFrame, CpuState.setReg, Function.update_of_ne, saveAll, retSlots, retWord,
      FrameSlot.offset]

/-- The flags that arithmetic sets. -/
def statusFlags : BitVec 64 := 0x8d5

/-- A function returns to its caller. -/
structure ReturnsToCaller (caller : CpuState) (value : BitVec 64) (after : CpuState) : Prop where
  regs : after.regs = Function.update (Function.update caller.regs .rsp (caller.rsp + 8)) .rax value
  rip : after.rip = load caller.mem caller.rsp
  rflags : after.rflags &&& ~~~ statusFlags = caller.rflags &&& ~~~ statusFlags
  cs : after.cs = gdKt
  ss : after.ss = gdKd
  fsBase : after.fsBase = caller.percpu.kfsBase

theorem CallerKept.load_eq {before after : Bytes} {offset : BitVec 64} (kept : CallerKept frame before after)
    (small : offset.toNat + 8 ≤ 184) : load after (frame + offset) = load before (frame + offset) := by
  refine load_congr fun index bound => kept _ ?_
  have split : frame + offset + BitVec.ofNat 64 index - frame = offset + BitVec.ofNat 64 index := by ring
  rw [split, BitVec.toNat_add, BitVec.toNat_ofNat]
  omega

/-- What the frame of the caller holds for the way back. -/
theorem UserInv.frameWord (inv : UserInv caller cpu) (slot : FrameSlot) :
    load (retFromUserFrame code cpu).mem (caller.rsp - tfAlign + slot.offset) =
      if slot ∈ retSlots then retWord code (cpu.regs .rdi) (caller.rsp - tfAlign) slot
      else load caller.callerMem (caller.rsp - tfAlign + slot.offset) := by
  obtain ⟨_, mem, _⟩ := retFromUserFrame_eq code cpu
  rw [mem, inv.trapStack, load_saveAll slot_apart,
    inv.kept.load_eq (Nat.le_trans slot.offset_bound (by decide))]

/-- The address of the caller stands above the frame. -/
theorem UserInv.back (inv : UserInv caller cpu) :
    load (retFromUserFrame code cpu).mem caller.rsp = load caller.mem caller.rsp := by
  obtain ⟨_, mem, _⟩ := retFromUserFrame_eq code cpu
  have top : caller.rsp = caller.rsp - tfAlign + tfAlign := by rw [sub_add_cancel]
  have above : load (retFromUserFrame code cpu).mem (caller.rsp - tfAlign + tfAlign) =
      load cpu.mem (caller.rsp - tfAlign + tfAlign) := by
    refine load_congr fun index small => ?_
    rw [mem, inv.trapStack, saveAll_outside (fun slot _ => slot.offset_bound)]
    have split : caller.rsp - tfAlign + tfAlign + BitVec.ofNat 64 index - (caller.rsp - tfAlign) =
        tfAlign + BitVec.ofNat 64 index := by ring
    have size : tfAlign.toNat = 176 := rfl
    rw [split, BitVec.toNat_add, BitVec.toNat_ofNat, size]
    omega
  rw [← callerMem_back, top, above, inv.kept.load_eq (by decide)]

theorem UserInv.returns (inv : UserInv caller cpu) (ring : cpu.inUser = false) (code : UserCode) :
    (duneRetFromUser code cpu).rip = code.retFromUserFinish ∧
      ReturnsToCaller caller (cpu.regs .rdi) (duneRetFromUserFinish (duneRetFromUser code cpu)) := by
  obtain ⟨rdi, _, _, fsBase⟩ := retFromUserFrame_eq code cpu
  have words := @UserInv.frameWord cpu caller code inv
  have back := @UserInv.back cpu caller code inv
  rw [duneRetFromUser]
  obtain ⟨filled, isFilled⟩ : ∃ filled, filled = retFromUserFrame code cpu := ⟨_, rfl⟩
  obtain ⟨frame, isFrame⟩ : ∃ frame, frame = caller.rsp - tfAlign := ⟨_, rfl⟩
  rw [inv.trapStack, ← isFrame] at rdi
  rw [← isFrame] at words
  rw [← isFilled] at rdi fsBase words back ⊢
  have start := dunePopTrapFrame_eq filled
  rw [rdi] at start
  obtain ⟨left, isLeft⟩ : ∃ left, left = dunePopTrapFrame filled := ⟨_, rfl⟩
  rw [← isLeft] at start ⊢
  have leftRegs : ∀ reg, left.regs reg = load filled.mem (frame + tfOffset reg) := by
    intro reg
    rw [start]
  have leftMem : left.mem = filled.mem := by rw [start]
  have leftRsp : left.rsp + tfAlign = caller.rsp := by
    have word := words (.reg .rsp)
    rw [if_pos (by decide)] at word
    rw [CpuState.rsp, leftRegs]
    exact (congrArg (· + tfAlign) word).trans (by rw [isFrame]; exact sub_add_cancel ..)
  have top : (left.setReg .rsp (left.rsp + tfAlign)).rsp = caller.rsp := by
    rw [← leftRsp]
    exact setReg_same ..
  refine ⟨?_, ⟨funext fun reg => ?_, ?_, ?_, ?_, ?_, ?_⟩⟩
  · rw [start]
    exact (words .rip).trans (if_pos (by decide))
  · by_cases isRsp : reg = .rsp
    · rw [isRsp, Function.update_of_ne (by decide), Function.update_self, ← top]
      exact ret_rsp _
    · rw [duneRetFromUserFinish, ret_regs isRsp, setReg_other isRsp, leftRegs]
      have word := words (.reg reg)
      by_cases isRax : reg = .rax
      · rw [isRax] at word ⊢
        rw [Function.update_self]
        exact word.trans (if_pos (by decide))
      · have other : FrameSlot.reg reg ∉ retSlots := by
          revert isRsp isRax
          cases reg <;> decide
        rw [if_neg other] at word
        rw [Function.update_of_ne isRax, Function.update_of_ne isRsp]
        refine word.trans ?_
        rw [isFrame]
        exact callerMem_reg isRsp
  · have rip : (duneRetFromUserFinish left).rip =
        load left.mem (left.setReg .rsp (left.rsp + tfAlign)).rsp := rfl
    rw [rip, top, leftMem, back]
  · have flags : (duneRetFromUserFinish left).rflags = caller.rflags := by
      have same : (duneRetFromUserFinish left).rflags = left.rflags := rfl
      have word := words .rflags
      rw [if_neg (by decide)] at word
      rw [same, start, ← @callerMem_rflags caller, ← isFrame]
      exact word
    rw [flags]
  · have same : (duneRetFromUserFinish left).cs = left.cs := rfl
    have word := words .cs
    rw [if_pos (by decide)] at word
    rw [same, start]
    exact (congrArg (BitVec.setWidth 16) word).trans rfl
  · have same : (duneRetFromUserFinish left).ss = left.ss := rfl
    have word := words .ss
    rw [if_pos (by decide)] at word
    rw [same, start]
    exact (congrArg (BitVec.setWidth 16) word).trans rfl
  · have same : (duneRetFromUserFinish left).fsBase = left.fsBase := rfl
    rw [same, start, ← inv.kfsBase, ← inv.kernelBase ring]
    exact fsBase

end RdmaPaging
