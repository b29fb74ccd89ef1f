import RdmaPaging.TrapFrames

/-!
User mode, `dune.S`: `dune_jump_to_user` enters it, system calls of the user run their handler and come back
to it, and `dune_ret_from_user` returns to the caller of `dune_jump_to_user`.
-/

namespace RdmaPaging

open WordMemory

def gdKd : BitVec 16 := 0x18

def gdUd : BitVec 16 := 0x28 ||| 0x03

def gdUt : BitVec 16 := 0x30 ||| 0x03

def tfAlign : BitVec 64 := 176

def eflagsIf : BitVec 64 := 0x200

/-- The flags that `sysretq` loads. -/
def sysretFlags : BitVec 64 := 0x3c7fd7

/-- What `__dune_syscall`, `dune_ret_from_user` and the system call instruction use. -/
structure UserCode extends DuneCode where
  duneSyscall : BitVec 64
  syscallHandler : BitVec 64
  syscallReturn : BitVec 64
  retFromUserFinish : BitVec 64
  syscallMask : BitVec 64

/-! Instructions. -/

/-- Stores a word at an offset from the stack pointer. -/
def CpuState.put (cpu : CpuState) (offset word : BitVec 64) : CpuState :=
  { cpu with mem := store cpu.mem (cpu.rsp + offset) word }

/-- `syscall`, where `rip` is the address behind it. The segments are those of the processor's `STAR`, which
the host sets to libdune's. -/
def CpuState.syscall (cpu : CpuState) (code : UserCode) : CpuState :=
  { (cpu.setReg .rcx cpu.rip).setReg .r11 cpu.rflags with
    rip := code.duneSyscall
    cs := gdKt
    ss := gdKd
    rflags := cpu.rflags &&& ~~~ code.syscallMask }

def CpuState.sysretq (cpu : CpuState) : CpuState :=
  { cpu with
    rip := cpu.regs .rcx
    rflags := cpu.regs .r11 &&& sysretFlags ||| 2
    cs := gdUt
    ss := gdUd }

/-! System calls. -/

/-- Who does a system call: the host, by `vmcall`, or the handler of libdune. -/
inductive SyscallPath
  | host (cpu : CpuState)
  | handler (cpu : CpuState)

/-- The trap frame of `__dune_syscall`, on the kernel's stack. -/
def syscallFrame (cpu : CpuState) : CpuState :=
  let cpu := { cpu with percpu := { cpu.percpu with tmp := cpu.rsp } }
  let cpu := cpu.setReg .rsp cpu.percpu.trapStack
  let cpu := cpu.setReg .rsp (cpu.rsp - tfEnd)
  let cpu := cpu.put tfRip (cpu.regs .rcx)
  let cpu := cpu.put tfRflags (cpu.regs .r11)
  let cpu := cpu.put (tfOffset .rcx) (cpu.regs .r10)
  let cpu := cpu.save (savedRegs false true)
  let cpu := cpu.setReg .rax cpu.percpu.tmp
  cpu.put (tfOffset .rsp) (cpu.regs .rax)

/-- `__dune_syscall`, to the `vmcall` or the first instruction of `dune_syscall_handler`. -/
def duneSyscall (code : UserCode) (cpu : CpuState) : SyscallPath :=
  if cpu.percpu.inUsermode &&& 1 = 0 then
    .host { cpu with rflags := cpu.regs .r11, mem := store cpu.mem (cpu.rsp - 8) (cpu.regs .r11) }
  else
    let cpu := (syscallFrame cpu).setG0FsBase
    let cpu := { cpu with rflags := cpu.rflags ||| eflagsIf }
    let cpu := cpu.setReg .rdi cpu.rsp
    let cpu := cpu.setReg .rax code.syscallHandler
    .handler (cpu.call code.syscallReturn (cpu.regs .rax))

/-- The rest of `__dune_syscall`, after `dune_syscall_handler` has returned. -/
def syscallExit (cpu : CpuState) : CpuState :=
  let cpu := cpu.setG3FsBase
  let cpu := cpu.restore (restoredRegs false true)
  let cpu := cpu.setReg .r10 (load cpu.mem (cpu.rsp + tfOffset .rcx))
  let cpu := cpu.setReg .r11 (load cpu.mem (cpu.rsp + tfRflags))
  let cpu := cpu.setReg .rcx (load cpu.mem (cpu.rsp + tfRip))
  let cpu := cpu.setReg .rsp (load cpu.mem (cpu.rsp + tfOffset .rsp))
  cpu.sysretq

/-! Into user mode and out of it. -/

def dunePopTrapFrame (cpu : CpuState) : CpuState :=
  let cpu := cpu.setReg .rsp (cpu.regs .rdi)
  let cpu := cpu.restore (restoredRegs true true)
  let cpu := cpu.restore restRegs.reverse
  (cpu.setReg .rsp (cpu.rsp + efStart)).iretq

/-- `dune_ret_from_user`, up to its jump. -/
def retFromUserFrame (code : UserCode) (cpu : CpuState) : CpuState :=
  let cpu := cpu.setReg .rsi (cpu.regs .rdi)
  let cpu := cpu.setReg .rdi cpu.percpu.trapStack
  let cpu := { cpu with mem := store cpu.mem (cpu.regs .rdi + tfOffset .rax) (cpu.regs .rsi) }
  let cpu := cpu.setReg .rax code.retFromUserFinish
  let cpu := { cpu with mem := store cpu.mem (cpu.regs .rdi + tfRip) (cpu.regs .rax) }
  let cpu := { cpu with mem := store cpu.mem (cpu.regs .rdi + tfCs) (gdKt.setWidth 64) }
  let cpu := { cpu with mem := store cpu.mem (cpu.regs .rdi + tfSs) (gdKd.setWidth 64) }
  { cpu with mem := store cpu.mem (cpu.regs .rdi + tfOffset .rsp) (cpu.regs .rdi) }

def duneRetFromUser (code : UserCode) (cpu : CpuState) : CpuState :=
  dunePopTrapFrame (retFromUserFrame code cpu)

def duneRetFromUserFinish (cpu : CpuState) : CpuState := (cpu.setReg .rsp (cpu.rsp + tfAlign)).ret

/-- The frame that `dune_jump_to_user` leaves on its caller's stack, and the address of the caller, keep
their bytes. -/
def CallerKept (frame : BitVec 64) (before after : Bytes) : Prop :=
  ∀ addr, (addr - frame).toNat < 184 → after addr = before addr

/-! The way through a trap frame. -/

variable {cpu caller : CpuState} {code : UserCode} {addr frame : BitVec 64}

theorem dunePopTrapFrame_eq (cpu : CpuState) : dunePopTrapFrame cpu = { cpu with
    regs := fun reg => load cpu.mem (cpu.regs .rdi + tfOffset reg)
    rip := load cpu.mem (cpu.regs .rdi + tfRip)
    cs := (load cpu.mem (cpu.regs .rdi + tfCs)).setWidth 16
    rflags := load cpu.mem (cpu.regs .rdi + tfRflags)
    ss := (load cpu.mem (cpu.regs .rdi + tfSs)).setWidth 16 } := by
  obtain ⟨top, isTop⟩ : ∃ top, top = cpu.setReg .rsp (cpu.regs .rdi) := ⟨_, rfl⟩
  have topRsp : top.rsp = cpu.regs .rdi := by rw [isTop, CpuState.rsp, setReg_same]
  have topMem : top.mem = cpu.mem := by rw [isTop]; rfl
  obtain ⟨half, isHalf⟩ : ∃ half, half = top.restore (restoredRegs true true) := ⟨_, rfl⟩
  have halfRsp : half.rsp = cpu.regs .rdi := by
    rw [← topRsp, isHalf, CpuState.rsp, restore_regs, if_neg (by decide)]
    rfl
  obtain ⟨loaded, isLoaded⟩ : ∃ loaded, loaded = half.restore restRegs.reverse := ⟨_, rfl⟩
  have loadedRsp : loaded.rsp = cpu.regs .rdi := by
    rw [← halfRsp, isLoaded, CpuState.rsp, restore_regs, if_neg (by decide)]
    rfl
  have halfMem : half.mem = cpu.mem := by rw [isHalf, ← topMem]; rfl
  have regs : ∀ reg, reg ≠ .rsp → loaded.regs reg = load cpu.mem (cpu.regs .rdi + tfOffset reg) := by
    intro reg other
    rw [isLoaded, restore_regs, halfRsp, halfMem]
    rcases reg_cases reg with kept | restored | same
    · rw [if_pos (List.mem_reverse.mpr kept)]
    · rw [isHalf, restore_regs, if_pos restored, topRsp, topMem, ite_self]
    · exact absurd same other
  have jump : dunePopTrapFrame cpu = (loaded.setReg .rsp (cpu.regs .rdi + efStart)).iretq := by
    rw [← loadedRsp, isLoaded, isHalf, isTop]
    rfl
  have all : Function.update loaded.regs .rsp (load cpu.mem (cpu.regs .rdi + tfOffset .rsp)) =
      fun reg => load cpu.mem (cpu.regs .rdi + tfOffset reg) := by
    funext reg
    by_cases same : reg = .rsp
    · rw [same, Function.update_self]
    · rw [Function.update_of_ne same, regs reg same]
  have loadedMem : loaded.mem = cpu.mem := by rw [isLoaded, ← halfMem]; rfl
  rw [jump, iretq_frame, loadedMem, all, isLoaded, isHalf, isTop]
  rfl

/-! Into user mode. -/

/-- The registers that `dune_jump_to_user` saves. -/
def jumpRegs : List Reg := savedRegs true true ++ restRegs

/-- The memory with the frame of the caller. -/
def CpuState.callerMem (cpu : CpuState) : Bytes :=
  let frame := cpu.rsp - tfAlign
  let saved := saveAll tfOffset (Function.update cpu.regs .rsp frame) frame jumpRegs cpu.mem
  store (store saved (frame - 8) cpu.rflags) (frame + tfRflags) cpu.rflags

/-- What the memory of the caller's frame and the words of the user's frame hold. -/
theorem callerMem_outside (far : 176 ≤ (addr - (cpu.rsp - tfAlign - 8)).toNat) :
    cpu.callerMem addr = cpu.mem addr := by
  have above : 168 ≤ (addr - (cpu.rsp - tfAlign)).toNat := by
    have split : addr - (cpu.rsp - tfAlign) = addr - (cpu.rsp - tfAlign - 8) - 8 := by ring
    have eight : (8 : BitVec 64).toNat = 8 := rfl
    rw [split, BitVec.toNat_sub, eight]
    omega
  have flags : 8 ≤ (addr - (cpu.rsp - tfAlign + tfRflags)).toNat := by
    have split : addr - (cpu.rsp - tfAlign + tfRflags) = addr - (cpu.rsp - tfAlign) - tfRflags := by ring
    have offset : tfRflags.toNat = 144 := rfl
    rw [split, BitVec.toNat_sub, offset]
    omega
  have bound : ∀ reg ∈ jumpRegs, (tfOffset reg).toNat + 8 ≤ 168 := by decide
  rw [CpuState.callerMem, store_outside flags, store_outside (Nat.le_trans (by decide) far),
    saveAll_outside bound above]

theorem callerMem_reg {reg : Reg} (other : reg ≠ .rsp) :
    load cpu.callerMem (cpu.rsp - tfAlign + tfOffset reg) = cpu.regs reg := by
  have saved : reg ∈ jumpRegs := by
    revert other
    cases reg <;> decide
  have flags : WordsApart tfRflags (tfOffset reg) := slot_apart .rflags (.reg reg) (by simp)
  have below : WordsApart (-8) (tfOffset reg) := (FrameSlot.reg reg).below
  rw [CpuState.callerMem, load_store_apart ((apart_add _).mpr flags), sub_eq_add_neg _ (8 : BitVec 64),
    load_store_apart ((apart_add _).mpr below), load_saveAll tfOffset_apart, if_pos saved,
    Function.update_of_ne other]

theorem callerMem_rflags : load cpu.callerMem (cpu.rsp - tfAlign + tfRflags) = cpu.rflags := load_store

/-- A word above the frame. -/
theorem callerMem_back : load cpu.callerMem cpu.rsp = load cpu.mem cpu.rsp := by
  refine load_congr fun index small => callerMem_outside ?_
  have split : cpu.rsp + BitVec.ofNat 64 index - (cpu.rsp - tfAlign - 8) =
      BitVec.ofNat 64 index + (tfAlign + 8) := by ring
  have size : (tfAlign + 8).toNat = 184 := rfl
  rw [split, BitVec.toNat_add, BitVec.toNat_ofNat, size]
  omega

/-- What a user starts with: the words of its frame, at ring 3. -/
structure UserStarts (caller start : CpuState) : Prop where
  regs : start.regs = fun reg => load caller.mem (caller.regs .rdi + tfOffset reg)
  rip : start.rip = load caller.mem (caller.regs .rdi + tfRip)
  rflags : start.rflags = load caller.mem (caller.regs .rdi + tfRflags)
  cs : start.cs = gdUt
  ss : start.ss = gdUd
  fsBase : start.fsBase = caller.percpu.ufsBase
  percpu : start.percpu = { caller.percpu with trapStack := caller.rsp - tfAlign, inUsermode := 1 }
  kept : CallerKept (caller.rsp - tfAlign) caller.callerMem start.mem

section Jump

variable (apart : BlocksApart (caller.rsp - tfAlign - 8) 192 (caller.regs .rdi) 168)

include apart

end Jump

/-! System calls. -/

/-- The words of the frame, after the `syscall` instruction. -/
def CpuState.syscallWord (cpu : CpuState) : FrameSlot → BitVec 64
  | .reg .rcx => cpu.regs .r10
  | .reg reg => cpu.regs reg
  | .rip => cpu.regs .rcx
  | .rflags => cpu.regs .r11
  | .err | .cs | .ss => 0

def syscallSlots : List FrameSlot :=
  [.rip, .rflags, .reg .rcx] ++ (savedRegs false true).map .reg ++ [.reg .rsp]

/-- The stack pointer of the user is kept in the private area. -/
def CpuState.keptRsp (cpu : CpuState) : CpuState := { cpu with percpu := { cpu.percpu with tmp := cpu.rsp } }

theorem syscallFrame_eq (cpu : CpuState) : syscallFrame cpu = { cpu.keptRsp with
    regs := Function.update (Function.update cpu.regs .rsp (cpu.percpu.trapStack - tfEnd)) .rax cpu.rsp
    mem := saveAll FrameSlot.offset cpu.syscallWord (cpu.percpu.trapStack - tfEnd) syscallSlots
      cpu.mem } := by
  obtain ⟨frame, isFrame⟩ : ∃ frame, frame = cpu.percpu.trapStack - tfEnd := ⟨_, rfl⟩
  obtain ⟨headed, isHeaded⟩ : ∃ headed : CpuState, headed = { cpu.keptRsp with
    regs := Function.update cpu.regs .rsp frame
    mem := saveAll FrameSlot.offset cpu.syscallWord frame [.rip, .rflags, .reg .rcx] cpu.mem } := ⟨_, rfl⟩
  have rsp : headed.rsp = frame := by simp [isHeaded, CpuState.rsp]
  have mem : headed.mem =
      saveAll FrameSlot.offset cpu.syscallWord frame [.rip, .rflags, .reg .rcx] cpu.mem := by
    rw [isHeaded]
  have regs : ∀ reg, reg ≠ .rsp → headed.regs reg = cpu.regs reg := by
    intro reg other
    rw [isHeaded]
    exact Function.update_of_ne other ..
  have saved : (headed.save (savedRegs false true)).mem = saveAll FrameSlot.offset cpu.syscallWord frame
      ([.rip, .rflags, .reg .rcx] ++ (savedRegs false true).map .reg) cpu.mem := by
    rw [saveAll_append, ← mem, ← rsp]
    refine save_words fun reg member => ?_
    have plain : reg ≠ .rsp ∧ reg ≠ .rcx := by
      constructor <;> rintro rfl <;> exact absurd member (by decide)
    rw [regs reg plain.1]
    cases reg <;> first | rfl | exact absurd rfl plain.2
  have frameEq : syscallFrame cpu = ((headed.save (savedRegs false true)).setReg .rax cpu.rsp).put
      (tfOffset .rsp) cpu.rsp := by
    rw [isHeaded, isFrame]
    unfold syscallFrame CpuState.keptRsp
    simp only [CpuState.setReg, CpuState.put, CpuState.rsp, CpuState.save, Function.update_self,
      Function.update_idem]
    rfl
  rw [frameEq, syscallSlots, saveAll_append, ← isFrame, ← saved, ← rsp]
  rw [isHeaded]
  rfl

/-- The number and the arguments of a user's call, its stack pointer, flags and address. -/
def CpuState.userWord (cpu : CpuState) : FrameSlot → BitVec 64
  | .reg .rcx => cpu.regs .r10
  | .reg reg => cpu.regs reg
  | .rip => cpu.rip
  | .rflags => cpu.rflags
  | .err | .cs | .ss => 0

theorem syscall_regs {reg : Reg} (notRcx : reg ≠ .rcx) (notR11 : reg ≠ .r11) :
    (cpu.syscall code).regs reg = cpu.regs reg :=
  (setReg_other notR11).trans (setReg_other notRcx)

theorem syscallWord_user {slot : FrameSlot} (member : slot ∈ syscallSlots) :
    (cpu.syscall code).syscallWord slot = cpu.userWord slot := by
  cases slot with
  | reg reg =>
      by_cases isRcx : reg = .rcx
      · rw [isRcx]
        exact syscall_regs (by decide) (by decide)
      · have notR11 : reg ≠ .r11 := by
          rintro rfl
          exact absurd member (by decide)
        have same := @syscall_regs cpu code reg isRcx notR11
        cases reg <;> first | exact same | exact absurd rfl isRcx
  | rip =>
      simp [CpuState.syscallWord, CpuState.userWord, CpuState.syscall, CpuState.setReg, Function.update_of_ne]
  | rflags => simp [CpuState.syscallWord, CpuState.userWord, CpuState.syscall]
  | err | cs | ss => rfl

/-- The trap frame of a system call. -/
def CpuState.syscallTf (cpu : CpuState) : BitVec 64 := cpu.percpu.trapStack - tfEnd

/-- A system call of the user has been taken: its handler is called at ring 0, with a frame. -/
structure SyscallTaken (code : UserCode) (cpu entered : CpuState) : Prop where
  rip : entered.rip = code.syscallHandler
  argument : entered.regs .rdi = cpu.syscallTf
  ring : entered.inUser = false
  fsBase : entered.fsBase = entered.percpu.kfsBase
  percpu : entered.percpu = { cpu.percpu with tmp := cpu.rsp, inUsermode := 0 }
  words : ∀ slot ∈ syscallSlots, load entered.mem (cpu.syscallTf + slot.offset) = cpu.userWord slot
  outside : ∀ addr, 176 ≤ (addr - (cpu.syscallTf - 8)).toNat → entered.mem addr = cpu.mem addr

/-- A system call of the user enters the handler, with a frame of the kernel's stack. -/
theorem duneSyscall_called (ring : cpu.inUser = true) (base : cpu.fsBase = cpu.threadBase)
    (mode : cpu.percpu.inUsermode = 1) :
    ∃ entered, duneSyscall code (cpu.syscall code) = .handler entered ∧
      HandlerCalled cpu.keptRsp (cpu.percpu.trapStack - tfEnd) code.syscallReturn syscallSlots
        (cpu.syscall code).syscallWord entered ∧
      entered.regs .rdi = cpu.percpu.trapStack - tfEnd ∧ entered.rip = code.syscallHandler := by
  have frame := syscallFrame_eq (cpu.syscall code)
  obtain ⟨framed, isFramed⟩ : ∃ framed, framed = syscallFrame (cpu.syscall code) := ⟨_, rfl⟩
  rw [← isFramed] at frame
  have user : cpu.fsBase = cpu.percpu.ufsBase := by
    rw [base, threadBase_user ring]
  have rsp : framed.rsp = cpu.percpu.trapStack - tfEnd := by
    have top : (cpu.syscall code).percpu = cpu.percpu := rfl
    simp [frame, CpuState.rsp, Function.update_of_ne, top]
  obtain ⟨ready, isReady⟩ : ∃ ready, ready = framed.setG0FsBase := ⟨_, rfl⟩
  have readyRegs : ∀ reg ∉ fsBaseRegs, ready.regs reg = framed.regs reg := by
    intro reg other
    rw [isReady, CpuState.setG0FsBase, setFsBase_regs other]
  have readyRsp : ready.rsp = cpu.percpu.trapStack - tfEnd := (readyRegs .rsp (by decide)).trans rsp
  obtain ⟨loaded, isLoaded⟩ : ∃ loaded : CpuState, loaded =
      (({ ready with rflags := ready.rflags ||| eflagsIf } : CpuState).setReg .rdi ready.rsp).setReg .rax
        code.syscallHandler := ⟨_, rfl⟩
  have call : duneSyscall code (cpu.syscall code) =
      .handler (loaded.call code.syscallReturn code.syscallHandler) := by
    have user : ¬ (cpu.syscall code).percpu.inUsermode &&& 1 = 0 := by
      have same : (cpu.syscall code).percpu.inUsermode = 1 := mode
      rw [same]
      decide
    rw [duneSyscall, if_neg user, ← isFramed, ← isReady, isLoaded]
    dsimp only
    rw [setReg_same]
    rfl
  have loadedRegs : ∀ reg, reg ≠ .rax → reg ≠ .rdi → loaded.regs reg = ready.regs reg := by
    intro reg notRax notRdi
    rw [isLoaded, setReg_other notRax, setReg_other notRdi]
  have loadedRsp : loaded.rsp = cpu.percpu.trapStack - tfEnd :=
    (loadedRegs .rsp (by decide) (by decide)).trans readyRsp
  have loadedMem : loaded.mem = framed.mem := by
    have same : ready.mem = framed.mem := by rw [isReady, CpuState.setG0FsBase, setFsBase_keeps.1]
    rw [isLoaded, ← same]
    rfl
  refine ⟨_, call, ⟨?_, ?_, ?_, ?_, ?_, ?_⟩, ?_, rfl⟩
  · rw [call_rsp, loadedRsp]
  · intro reg kept
    obtain ⟨free, notRdi, _, notRsp, notRax, _, notR11⟩ := rest_kept reg kept
    have notRcx : reg ≠ .rcx := by
      rintro rfl
      exact free (by decide)
    rw [call_regs notRsp, loadedRegs reg notRax notRdi, readyRegs reg free, frame]
    dsimp only
    rw [Function.update_of_ne notRax, Function.update_of_ne notRsp]
    exact syscall_regs notRcx notR11
  · have mem : framed.mem = saveAll FrameSlot.offset (cpu.syscall code).syscallWord
        (cpu.percpu.trapStack - tfEnd) syscallSlots cpu.mem := by
      rw [frame]
      rfl
    have pushed : (loaded.call code.syscallReturn code.syscallHandler).mem =
        store loaded.mem (loaded.rsp - 8) code.syscallReturn := rfl
    rw [pushed, loadedMem, loadedRsp, mem]
    rfl
  · have cs : ready.cs = framed.cs := by rw [isReady, CpuState.setG0FsBase, setFsBase_keeps.2.1]
    have ringed : (loaded.call code.syscallReturn code.syscallHandler).cs = ready.cs := by
      rw [isLoaded]
      rfl
    rw [ringed, cs, frame]
    rfl
  · have switched : ready.fsBase = framed.percpu.kfsBase := by
      rw [isReady]
      refine setG0FsBase_base ?_
      rw [frame]
      exact user
    have kept : (loaded.call code.syscallReturn code.syscallHandler).fsBase = ready.fsBase := by
      rw [isLoaded]
      rfl
    rw [kept, switched, frame]
    rfl
  · have area : ready.percpu = { framed.percpu with inUsermode := 0 } := by
      rw [isReady, CpuState.setG0FsBase, setFsBase_keeps.2.2]
    have kept : (loaded.call code.syscallReturn code.syscallHandler).percpu = ready.percpu := by
      rw [isLoaded]
      rfl
    have user : cpu.keptRsp.inUser = true := ring
    have trappedRsp : (cpu.syscall code).rsp = cpu.rsp := by
      simp [CpuState.syscall, CpuState.rsp, CpuState.setReg, Function.update_of_ne]
    rw [kept, area, frame, user]
    dsimp only [CpuState.keptRsp, DunePercpu.switch]
    rw [trappedRsp]
    rfl
  · rw [call_regs (by decide), isLoaded, setReg_other (by decide), setReg_same, readyRsp]

theorem duneSyscall_taken (ring : cpu.inUser = true) (base : cpu.fsBase = cpu.threadBase)
    (mode : cpu.percpu.inUsermode = 1) :
    ∃ entered, duneSyscall code (cpu.syscall code) = .handler entered ∧ SyscallTaken code cpu entered := by
  obtain ⟨entered, path, called, rdi, rip⟩ := @duneSyscall_called cpu code ring base mode
  have user : cpu.keptRsp.inUser = true := ring
  refine ⟨entered, path, rip, rdi, ?_, ?_, ?_, fun slot member => ?_, fun addr far => called.outside far⟩
  · rw [CpuState.inUser, called.ring]
    decide
  · rw [called.fsBase, called.percpu]
    rfl
  · rw [called.percpu, user]
    rfl
  · exact (called.slot member).trans (syscallWord_user member)

/-- The registers of a user after its system call: the result in `rax`, and what the instruction itself puts
in `rcx` and `r11`. -/
def CpuState.answered (cpu : CpuState) (result : BitVec 64) : Reg → BitVec 64 :=
  Function.update (Function.update (Function.update cpu.regs .rcx cpu.rip) .r11 cpu.rflags) .rax result

theorem syscallExit_thread {returned : CpuState} (base : returned.fsBase = returned.percpu.kfsBase) :
    (syscallExit returned).inUser = true ∧ (syscallExit returned).fsBase = returned.percpu.ufsBase ∧
      (syscallExit returned).percpu = { returned.percpu with inUsermode := 1 } ∧
      (syscallExit returned).mem = returned.mem := by
  have cs : (syscallExit returned).cs = gdUt := rfl
  have user : (syscallExit returned).inUser = true := by
    rw [CpuState.inUser, cs]
    decide
  exact ⟨user, setG3FsBase_base base, setFsBase_keeps.2.2, setFsBase_keeps.1⟩

end RdmaPaging
