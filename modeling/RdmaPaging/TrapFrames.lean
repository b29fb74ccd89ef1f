import RdmaPaging.VmxSignals
import RdmaPaging.WordMemory

/-!
The way of interrupts and exceptions into libdune's handlers and back: the gates of `entry.c`, the stubs of
`dune.S`, which fill a trap frame, and the callbacks of `trap.c`. Neither the status flags that arithmetic
leaves are modelled, as the way back loads the flags from the frame, nor the resume flag, which the processor
sets in the frame of a fault.
-/

namespace RdmaPaging

open WordMemory

inductive Reg
  | rdi | rsi | rdx | rcx | r8 | r9 | r10 | r11 | rbx | rbp | r12 | r13 | r14 | r15 | rax | rsp
  deriving DecidableEq

/-! The format of a trap frame. -/

def tfOffset : Reg → BitVec 64
  | .rdi => 0
  | .rsi => 8
  | .rdx => 16
  | .rcx => 24
  | .r8 => 32
  | .r9 => 40
  | .r10 => 48
  | .r11 => 56
  | .rbx => 64
  | .rbp => 72
  | .r12 => 80
  | .r13 => 88
  | .r14 => 96
  | .r15 => 104
  | .rax => 112
  | .rsp => 152

def regEnd : BitVec 64 := 112

def tfErr : BitVec 64 := 120

def tfRip : BitVec 64 := 128

def tfCs : BitVec 64 := 136

def tfRflags : BitVec 64 := 144

def tfSs : BitVec 64 := 160

def efStart : BitVec 64 := 128

def tfEnd : BitVec 64 := 168

def gdKt : BitVec 16 := 0x10

/-- `dune_percpu`, to which `gs` points. `TRAP_STACK` is the first stack of the task state segment. -/
structure DunePercpu where
  tmp : BitVec 64
  kfsBase : BitVec 64
  ufsBase : BitVec 64
  inUsermode : BitVec 64
  trapStack : BitVec 64
  tssIst : BitVec 8 → BitVec 64

/-- The ways of the user into ring 0 and back change the mode only. -/
def DunePercpu.switch (percpu : DunePercpu) (user : Bool) (mode : BitVec 64) : DunePercpu :=
  { percpu with inUsermode := if user then mode else percpu.inUsermode }

structure CpuState where
  regs : Reg → BitVec 64
  rip : BitVec 64
  rflags : BitVec 64
  cs : BitVec 16
  ss : BitVec 16
  fsBase : BitVec 64
  percpu : DunePercpu
  mem : Bytes

/-- The labels of `dune.S` and the functions that it calls. -/
structure DuneCode where
  duneIntr : BitVec 64
  trapHandler : BitVec 64
  intrReturn : BitVec 64

/-! Instructions. -/

def CpuState.rsp (cpu : CpuState) : BitVec 64 := cpu.regs .rsp

def CpuState.setReg (cpu : CpuState) (reg : Reg) (value : BitVec 64) : CpuState :=
  { cpu with regs := Function.update cpu.regs reg value }

def CpuState.push (cpu : CpuState) (word : BitVec 64) : CpuState :=
  { cpu.setReg .rsp (cpu.rsp - 8) with mem := store cpu.mem (cpu.rsp - 8) word }

def CpuState.call (cpu : CpuState) (back target : BitVec 64) : CpuState :=
  { cpu.push back with rip := target }

/-- The processor runs at a ring above 0. -/
def CpuState.inUser (cpu : CpuState) : Bool := cpu.cs &&& 3 ≠ 0

/-- Code of ring 0 does what a segment selector in a frame says. -/
def userSelector (word : BitVec 64) : Bool := word &&& 3 ≠ 0

def CpuState.ret (cpu : CpuState) : CpuState :=
  { cpu.setReg .rsp (cpu.rsp + 8) with rip := load cpu.mem cpu.rsp }

def CpuState.iretq (cpu : CpuState) : CpuState :=
  { cpu.setReg .rsp (load cpu.mem (cpu.rsp + 24)) with
    rip := load cpu.mem cpu.rsp
    cs := (load cpu.mem (cpu.rsp + 8)).setWidth 16
    rflags := load cpu.mem (cpu.rsp + 16)
    ss := (load cpu.mem (cpu.rsp + 32)).setWidth 16 }

def msrFsBase : BitVec 64 := 0xc0000100

/-- `wrmsr`, for the one register that is written. -/
def CpuState.wrmsr (cpu : CpuState) : CpuState :=
  { cpu with
    fsBase := if cpu.regs .rcx = msrFsBase then
      (cpu.regs .rdx).setWidth 32 ++ (cpu.regs .rax).setWidth 32 else cpu.fsBase }

/-! The macros. -/

/-- The registers of `SAVE_REGS`, in its order. -/
def savedRegs (full includeRax : Bool) : List Reg :=
  [.rdi, .rsi, .rdx, .r8, .r9] ++ (if full then [.r10, .r11, .rcx] else []) ++
    (if includeRax then [.rax] else [])

/-- The registers of `RESTORE_REGS`. -/
def restoredRegs (full includeRax : Bool) : List Reg :=
  (if includeRax then [.rax] else []) ++ (if full then [.rcx, .r11, .r10] else []) ++
    [.r9, .r8, .rdx, .rsi, .rdi]

/-- The registers of `SAVE_REST` and `RESTORE_REST`, which a function keeps for its caller. -/
def restRegs : List Reg := [.rbx, .rbp, .r12, .r13, .r14, .r15]

def CpuState.save (cpu : CpuState) (names : List Reg) : CpuState :=
  { cpu with mem := saveAll tfOffset cpu.regs cpu.rsp names cpu.mem }

def CpuState.restore (cpu : CpuState) (names : List Reg) : CpuState :=
  { cpu with regs := restoreAll tfOffset cpu.mem cpu.rsp names cpu.regs }

/-- `SET_G0_FS_BASE` and `SET_G3_FS_BASE`. -/
def CpuState.setFsBase (cpu : CpuState) (mode : BitVec 64) (own other : DunePercpu → BitVec 64) : CpuState :=
  let cpu := { cpu with percpu := { cpu.percpu with inUsermode := mode } }
  let cpu := (cpu.setReg .rax (own cpu.percpu)).setReg .rdx (other cpu.percpu)
  if cpu.regs .rdx = cpu.regs .rax then cpu
  else
    let cpu := cpu.setReg .rdx (cpu.regs .rax)
    let cpu := cpu.setReg .rdx (cpu.regs .rdx >>> 32)
    (cpu.setReg .rcx msrFsBase).wrmsr

/-- The registers that the switch of the thread pointer clobbers. -/
def fsBaseRegs : List Reg := [.rax, .rdx, .rcx]

def CpuState.setG0FsBase (cpu : CpuState) : CpuState := cpu.setFsBase 0 (·.kfsBase) (·.ufsBase)

def CpuState.setG3FsBase (cpu : CpuState) : CpuState := cpu.setFsBase 1 (·.ufsBase) (·.kfsBase)

/-! Interrupts and exceptions. -/

structure Idtd where
  low : BitVec 16
  selector : BitVec 16
  ist : BitVec 8
  type : BitVec 8
  middle : BitVec 16
  high : BitVec 32
  zero : BitVec 32

def isrLen : BitVec 64 := 16

def idtdP : BitVec 8 := 1 <<< 7

def idtdCpl3 : BitVec 8 := 3 <<< 5

def idtdTrapGate : BitVec 8 := 0xf

def setIdtAddr (id : Idtd) (addr : BitVec 64) : Idtd := { id with
  low := (addr &&& 0xffff).setWidth 16
  middle := ((addr >>> 16) &&& 0xffff).setWidth 16
  high := ((addr >>> 32) &&& 0xffffffff).setWidth 32 }

def tNmi : Nat := 2

def tBrkpt : Nat := 3

def tDblflt : Nat := 8

def tMchk : Nat := 18

/-- `setup_idt`. -/
def setupIdt (code : DuneCode) (i : Fin 256) : Idtd :=
  let isr := code.duneIntr + isrLen * BitVec.ofNat 64 i
  let type := idtdP ||| idtdTrapGate
  let id : Idtd := {
    low := 0
    selector := gdKt
    ist := if i.val = tBrkpt ∨ i.val = tDblflt ∨ i.val = tNmi ∨ i.val = tMchk then 1 else 0
    type := if i.val = tBrkpt then type ||| idtdCpl3 else type
    middle := 0
    high := 0
    zero := 0 }
  setIdtAddr id isr

/-- The processor pushes an error code for these vectors. -/
def pushesError (vector : Fin 256) : Bool := vector.val ∈ [8, 10, 11, 12, 13, 14, 17]

/-- The flags that a trap gate clears: TF, NT, RF and VM. -/
def trapClears : BitVec 64 := 0x34100

def Idtd.offset (id : Idtd) : BitVec 64 := id.high ++ (id.middle ++ id.low)

/-- The end of the stack that a gate uses. -/
def CpuState.gateStack (cpu : CpuState) (gate : Idtd) : BitVec 64 :=
  if gate.ist &&& 7 ≠ 0 then cpu.percpu.tssIst (gate.ist &&& 7)
  else if cpu.inUser then cpu.percpu.trapStack
  else cpu.rsp

/-- What the processor does on an interrupt or exception through a trap gate to ring 0. -/
def CpuState.deliverTrap (cpu : CpuState) (idt : Fin 256 → Idtd) (vector : Fin 256) (error : BitVec 64) :
    CpuState :=
  let gate := idt vector
  let framed := cpu.setReg .rsp (cpu.gateStack gate &&& ~~~ 0xf)
  let framed := framed.push (cpu.ss.setWidth 64)
  let framed := framed.push cpu.rsp
  let framed := framed.push cpu.rflags
  let framed := framed.push (cpu.cs.setWidth 64)
  let framed := framed.push cpu.rip
  let framed := if pushesError vector then framed.push error else framed
  { framed with
    rip := gate.offset
    cs := gate.selector
    ss := if cpu.inUser then 0 else cpu.ss
    rflags := cpu.rflags &&& ~~~ trapClears }

/-- The stub of a vector pushes a word where the processor pushes no error code. -/
def stubPlaceholder (i : Nat) : Bool := i ≠ 8 && (i ≤ 9 || i ≥ 15) && i ≠ 17

/-- The stubs stand 16 bytes apart from `__dune_intr` on. -/
def stubAt (code : DuneCode) (rip : BitVec 64) : Nat := ((rip - code.duneIntr) / 16).toNat

def CpuState.duneIntrStub (cpu : CpuState) (i : Nat) : CpuState :=
  let cpu := if stubPlaceholder i then cpu.push (cpu.regs .rax) else cpu
  let cpu := cpu.push (cpu.regs .rax)
  cpu.setReg .rax (BitVec.ofNat 64 i)

/-- `__dune_intr_with_num`, to the first instruction of `dune_trap_handler`. -/
def CpuState.duneIntrWithNum (cpu : CpuState) (code : DuneCode) : CpuState :=
  let cpu := cpu.setReg .rsp (cpu.rsp - regEnd)
  let cpu := cpu.save (savedRegs true false)
  let cpu := cpu.setReg .rdi (cpu.regs .rax)
  let cpu := if userSelector (load cpu.mem (cpu.rsp + tfCs)) then cpu.setG0FsBase else cpu
  let cpu := cpu.setReg .rsi cpu.rsp
  cpu.call code.intrReturn code.trapHandler

def trapEntry (code : DuneCode) (vector : Fin 256) (error : BitVec 64) (cpu : CpuState) : CpuState :=
  let cpu := cpu.deliverTrap (setupIdt code) vector error
  (cpu.duneIntrStub (stubAt code cpu.rip)).duneIntrWithNum code

/-- The rest of `__dune_intr_with_num`, after `dune_trap_handler` has returned. -/
def trapExit (cpu : CpuState) : CpuState :=
  let cpu := if userSelector (load cpu.mem (cpu.rsp + tfCs)) then cpu.setG3FsBase else cpu
  let cpu := cpu.restore (restoredRegs true true)
  (cpu.setReg .rsp (cpu.rsp + efStart)).iretq

/-! The callbacks of `trap.c`. -/

structure TrapCbs (Cb : Type) where
  intrCbs : Nat → Option Cb
  pgfltCb : Option Cb
  syscallCb : Option Cb

/-- A call that registers a callback, or takes one back. -/
inductive Registration (Cb : Type)
  | intr (vec : Int) (cb : Option Cb)
  | signal (signum : Int) (cb : Option Cb)
  | syscall (cb : Option Cb)
  | pgflt (cb : Option Cb)

def idtEntries : Int := 256

section Callbacks

variable {Cb : Type}

/-- `dune_register_intr_handler`, which refuses a vector that does not exist. -/
def duneRegisterIntrHandler (vec : Int) (cb : Option Cb) (cbs : TrapCbs Cb) : TrapCbs Cb :=
  if vec ≥ idtEntries ∨ vec < 0 then cbs
  else { cbs with intrCbs := Function.update cbs.intrCbs vec.toNat cb }

def TrapCbs.register (cbs : TrapCbs Cb) : Registration Cb → TrapCbs Cb
  | .intr vec cb => duneRegisterIntrHandler vec cb cbs
  | .signal signum cb => duneRegisterIntrHandler (duneSignalIntrBase + signum) cb cbs
  | .syscall cb => { cbs with syscallCb := cb }
  | .pgflt cb => { cbs with pgfltCb := cb }

/-- The callbacks after some calls, the latest first. -/
def registered : List (Registration Cb) → TrapCbs Cb
  | [] => ⟨fun _ => none, none, none⟩
  | call :: earlier => (registered earlier).register call

end Callbacks

/-- What a trap frame and the registers that functions keep say of the code that was left. -/
structure Context where
  regs : Reg → BitVec 64
  rip : BitVec 64
  rflags : BitVec 64
  cs : BitVec 16
  ss : BitVec 16

def CpuState.context (cpu : CpuState) : Context where
  regs := cpu.regs
  rip := cpu.rip
  rflags := cpu.rflags
  cs := cpu.cs
  ss := cpu.ss

def frameContext (mem : Bytes) (frame : BitVec 64) (kept : Reg → BitVec 64) : Context where
  regs := fun reg => if reg ∈ restRegs then kept reg else load mem (frame + tfOffset reg)
  rip := load mem (frame + tfRip)
  rflags := load mem (frame + tfRflags)
  cs := (load mem (frame + tfCs)).setWidth 16
  ss := (load mem (frame + tfSs)).setWidth 16

/-! What frames hold. -/

inductive FrameSlot
  | reg (reg : Reg)
  | err | rip | cs | rflags | ss
  deriving DecidableEq

def FrameSlot.offset : FrameSlot → BitVec 64
  | .reg name => tfOffset name
  | .err => tfErr
  | .rip => tfRip
  | .cs => tfCs
  | .rflags => tfRflags
  | .ss => tfSs

theorem FrameSlot.offset_cs : FrameSlot.cs.offset = tfCs := rfl

/-- The words of the code that is left. -/
def CpuState.frameWord (cpu : CpuState) (error : BitVec 64) : FrameSlot → BitVec 64
  | .reg reg => cpu.regs reg
  | .err => error
  | .rip => cpu.rip
  | .cs => cpu.cs.setWidth 64
  | .rflags => cpu.rflags
  | .ss => cpu.ss.setWidth 64

theorem tfOffset_apart (first second : Reg) (different : first ≠ second) :
    WordsApart (tfOffset first) (tfOffset second) := by
  cases first <;> cases second <;> first | exact absurd rfl different | decide

variable {cpu : CpuState} {names : List Reg} {reg : Reg} {addr : BitVec 64}

theorem restore_regs : (cpu.restore names).regs reg =
    if reg ∈ names then load cpu.mem (cpu.rsp + tfOffset reg) else cpu.regs reg :=
  restoreAll_apply

@[simp] theorem setReg_same (cpu : CpuState) (reg : Reg) (value : BitVec 64) :
    (cpu.setReg reg value).regs reg = value :=
  Function.update_self ..

theorem setReg_other {value : BitVec 64} {changed : Reg} (different : reg ≠ changed) :
    (cpu.setReg changed value).regs reg = cpu.regs reg :=
  Function.update_of_ne different ..

theorem call_rsp (cpu : CpuState) (back target : BitVec 64) : (cpu.call back target).rsp = cpu.rsp - 8 :=
  setReg_same cpu .rsp _

theorem call_regs {back target : BitVec 64} (other : reg ≠ .rsp) :
    (cpu.call back target).regs reg = cpu.regs reg :=
  Function.update_of_ne other ..

theorem ret_rsp (cpu : CpuState) : cpu.ret.rsp = cpu.rsp + 8 := setReg_same cpu .rsp _

theorem ret_regs (other : reg ≠ .rsp) : cpu.ret.regs reg = cpu.regs reg := Function.update_of_ne other ..

/-- The way out of a trap frame. -/
theorem iretq_frame (cpu : CpuState) (frame : BitVec 64) :
    (cpu.setReg .rsp (frame + efStart)).iretq = { cpu with
      regs := Function.update cpu.regs .rsp (load cpu.mem (frame + tfOffset .rsp))
      rip := load cpu.mem (frame + tfRip)
      cs := (load cpu.mem (frame + tfCs)).setWidth 16
      rflags := load cpu.mem (frame + tfRflags)
      ss := (load cpu.mem (frame + tfSs)).setWidth 16 } := by
  have rip : frame + efStart = frame + tfRip := rfl
  have cs : frame + efStart + 8 = frame + tfCs := add_assoc ..
  have rflags : frame + efStart + 16 = frame + tfRflags := add_assoc ..
  have rsp : frame + efStart + 24 = frame + tfOffset .rsp := add_assoc ..
  have ss : frame + efStart + 32 = frame + tfSs := add_assoc ..
  have top : (cpu.setReg .rsp (frame + efStart)).rsp = frame + efStart := setReg_same ..
  rw [CpuState.iretq, top, cs, rflags, rsp, ss, rip]
  simp only [CpuState.setReg, Function.update_idem]

/-- The registers that functions keep are none of those that the ways into ring 0 use. -/
theorem rest_kept : ∀ reg ∈ restRegs, reg ∉ fsBaseRegs ∧ reg ≠ .rdi ∧ reg ≠ .rsi ∧ reg ≠ .rsp ∧ reg ≠ .rax ∧
    reg ≠ .r10 ∧ reg ≠ .r11 := by
  decide

/-! The switch of the thread pointer. -/

theorem wrmsr_value (value : BitVec 64) :
    (value >>> 32).setWidth 32 ++ value.setWidth 32 = value := by
  apply BitVec.eq_of_toNat_eq
  have bound := value.isLt
  rw [BitVec.toNat_append, BitVec.toNat_setWidth, BitVec.toNat_setWidth, BitVec.toNat_ushiftRight,
    Nat.shiftRight_eq_div_pow, ← Nat.shiftLeft_add_eq_or_of_lt (Nat.mod_lt _ (by decide)),
    Nat.shiftLeft_eq]
  omega

theorem setFsBase_fsBase {mode : BitVec 64} {own another : DunePercpu → BitVec 64}
    (reads : ∀ percpu, own { percpu with inUsermode := mode } = own percpu)
    (readsOther : ∀ percpu, another { percpu with inUsermode := mode } = another percpu)
    (before : cpu.fsBase = another cpu.percpu) :
    (cpu.setFsBase mode own another).fsBase = own cpu.percpu := by
  unfold CpuState.setFsBase
  simp only [CpuState.setReg, Function.update_self, reads, readsOther]
  rw [Function.update_of_ne (by decide), Function.update_self]
  by_cases same : another cpu.percpu = own cpu.percpu
  · rw [if_pos same]
    exact before.trans same
  · rw [if_neg same]
    simp [CpuState.wrmsr, Function.update_of_ne, wrmsr_value]

theorem setFsBase_regs {mode : BitVec 64} {own another : DunePercpu → BitVec 64} (kept : reg ∉ fsBaseRegs) :
    (cpu.setFsBase mode own another).regs reg = cpu.regs reg := by
  simp only [fsBaseRegs, List.mem_cons, List.not_mem_nil, or_false, not_or] at kept
  obtain ⟨rax, rdx, rcx⟩ := kept
  unfold CpuState.setFsBase
  dsimp only [CpuState.setReg]
  split <;> simp [CpuState.wrmsr, Function.update_of_ne, rax, rdx, rcx]

theorem setFsBase_keeps {mode : BitVec 64} {own another : DunePercpu → BitVec 64} :
    (cpu.setFsBase mode own another).mem = cpu.mem ∧ (cpu.setFsBase mode own another).cs = cpu.cs ∧
      (cpu.setFsBase mode own another).percpu = { cpu.percpu with inUsermode := mode } := by
  unfold CpuState.setFsBase
  dsimp only [CpuState.setReg]
  split <;> exact ⟨rfl, rfl, rfl⟩

/-! Into a handler. -/

theorem slot_apart (first second : FrameSlot) (different : first ≠ second) :
    WordsApart first.offset second.offset := by
  cases first with
  | reg one =>
      cases second with
      | reg two => exact tfOffset_apart one two fun same => different (congrArg FrameSlot.reg same)
      | _ => cases one <;> decide
  | _ =>
      cases second with
      | reg two => cases two <;> decide
      | _ => first | exact absurd rfl different | decide

variable {code : DuneCode} {vector : Fin 256} {error : BitVec 64}

/-- The frame of a trap. -/
def CpuState.trapFrame (cpu : CpuState) (code : DuneCode) (vector : Fin 256) : BitVec 64 :=
  (cpu.gateStack (setupIdt code vector) &&& ~~~ 0xf) - tfEnd

/-- The word at the place of the error code. -/
def CpuState.errorWord (cpu : CpuState) (vector : Fin 256) (error : BitVec 64) : BitVec 64 :=
  if pushesError vector then error else cpu.regs .rax

/-- The processor and the stub fill the frame from its end. -/
def stubSlots : List FrameSlot := [.ss, .reg .rsp, .rflags, .cs, .rip, .err, .reg .rax]

theorem stubPlaceholder_iff (vector : Fin 256) : stubPlaceholder vector = !pushesError vector := by
  obtain ⟨i, small⟩ := vector
  simp only [stubPlaceholder, pushesError, List.mem_cons, List.not_mem_nil, or_false]
  rw [Bool.eq_iff_iff]
  simp only [Bool.and_eq_true, Bool.or_eq_true, decide_eq_true_eq, Bool.not_eq_true', decide_eq_false_iff_not,
    ne_eq]
  omega

theorem stub_entry : (cpu.deliverTrap (setupIdt code) vector error).duneIntrStub vector =
    { cpu with
      regs := Function.update (Function.update cpu.regs .rsp (cpu.trapFrame code vector + tfOffset .rax)) .rax
        (BitVec.ofNat 64 vector)
      rip := (setupIdt code vector).offset
      cs := gdKt
      ss := if cpu.inUser then 0 else cpu.ss
      rflags := cpu.rflags &&& ~~~ trapClears
      mem := saveAll FrameSlot.offset (cpu.frameWord (cpu.errorWord vector error))
        (cpu.trapFrame code vector) stubSlots cpu.mem } := by
  have selector : (setupIdt code vector).selector = gdKt := rfl
  have top : cpu.gateStack (setupIdt code vector) &&& ~~~ 0xf = cpu.trapFrame code vector + tfEnd := by
    rw [CpuState.trapFrame, sub_add_cancel]
  unfold CpuState.duneIntrStub CpuState.deliverTrap CpuState.errorWord
  dsimp only
  rw [stubPlaceholder_iff, top]
  generalize cpu.trapFrame code vector = frame
  cases pushesError vector <;>
    simp [CpuState.push, CpuState.setReg, CpuState.rsp, CpuState.frameWord, saveAll, stubSlots, selector,
      FrameSlot.offset, tfOffset, tfEnd, tfErr, tfRip, tfCs, tfRflags, tfSs, add_sub_assoc]

theorem setIdtAddr_offset (id : Idtd) (addr : BitVec 64) : (setIdtAddr id addr).offset = addr := by
  apply BitVec.eq_of_toNat_eq
  have low : (addr &&& 0xffff).setWidth 16 = addr.setWidth 16 := by
    rw [BitVec.setWidth_and]
    exact BitVec.and_allOnes
  have middle : ((addr >>> 16) &&& 0xffff).setWidth 16 = (addr >>> 16).setWidth 16 := by
    rw [BitVec.setWidth_and]
    exact BitVec.and_allOnes
  have high : ((addr >>> 32) &&& 0xffffffff).setWidth 32 = (addr >>> 32).setWidth 32 := by
    rw [BitVec.setWidth_and]
    exact BitVec.and_allOnes
  have bound := addr.isLt
  rw [setIdtAddr, Idtd.offset, low, middle, high]
  simp only [BitVec.toNat_append, BitVec.toNat_setWidth, BitVec.toNat_ushiftRight, Nat.shiftRight_eq_div_pow]
  rw [← Nat.shiftLeft_add_eq_or_of_lt (Nat.mod_lt _ (by decide)), Nat.shiftLeft_eq (_ % _) 16]
  rw [← Nat.shiftLeft_add_eq_or_of_lt (by omega), Nat.shiftLeft_eq]
  omega

/-- The gate of a vector leads to the stub of the vector. -/
theorem stubAt_gate (code : DuneCode) (vector : Fin 256) :
    stubAt code (setupIdt code vector).offset = vector := by
  have small := vector.isLt
  have length : isrLen.toNat = 16 := rfl
  have step : (16 : BitVec 64).toNat = 16 := rfl
  rw [setupIdt, setIdtAddr_offset, stubAt, add_sub_cancel_left, BitVec.toNat_udiv, BitVec.toNat_mul,
    BitVec.toNat_ofNat, length, step]
  omega

/-- The thread pointer that belongs to the ring. -/
def CpuState.threadBase (cpu : CpuState) : BitVec 64 :=
  if cpu.inUser then cpu.percpu.ufsBase else cpu.percpu.kfsBase

theorem threadBase_user (user : cpu.inUser = true) : cpu.threadBase = cpu.percpu.ufsBase := if_pos user

theorem threadBase_kernel (kernel : cpu.inUser = false) : cpu.threadBase = cpu.percpu.kfsBase := by
  rw [CpuState.threadBase, kernel, if_neg Bool.false_ne_true]

/-- A handler is called with a frame. -/
structure HandlerCalled (cpu : CpuState) (frame back : BitVec 64) (slots : List FrameSlot)
    (words : FrameSlot → BitVec 64) (entered : CpuState) : Prop where
  rsp : entered.rsp = frame - 8
  kept : ∀ reg ∈ restRegs, entered.regs reg = cpu.regs reg
  mem : entered.mem = store (saveAll FrameSlot.offset words frame slots cpu.mem) (frame - 8) back
  ring : entered.cs = gdKt
  fsBase : entered.fsBase = cpu.percpu.kfsBase
  percpu : entered.percpu = cpu.percpu.switch cpu.inUser 0

/-- The words of a trap frame. The other words of the frame are what the stack held. -/
def trapSlots : List FrameSlot := stubSlots ++ (savedRegs true false).map .reg

theorem userSelector_cs (cs : BitVec 16) : userSelector (cs.setWidth 64) = decide (cs &&& 3 ≠ 0) := by
  have same : cs.setWidth 64 &&& 3 = (cs &&& 3).setWidth 64 := by
    rw [BitVec.setWidth_and]
    rfl
  have zero : (cs &&& 3).setWidth 64 = (0 : BitVec 64) ↔ cs &&& 3 = 0 := by
    rw [← BitVec.toNat_inj, ← BitVec.toNat_inj, BitVec.toNat_setWidth_of_le (by decide)]
    rfl
  rw [userSelector, same]
  simp only [ne_eq, zero]

theorem save_words {words : FrameSlot → BitVec 64} (same : ∀ reg ∈ names, cpu.regs reg = words (.reg reg)) :
    (cpu.save names).mem = saveAll FrameSlot.offset words cpu.rsp (names.map .reg) cpu.mem :=
  @saveAll_map cpu.mem cpu.rsp FrameSlot FrameSlot.offset words Reg FrameSlot.reg names cpu.regs same

theorem load_slot {words : FrameSlot → BitVec 64} {frame : BitVec 64} {slots : List FrameSlot} {mem : Bytes}
    {slot : FrameSlot} (member : slot ∈ slots) :
    load (saveAll FrameSlot.offset words frame slots mem) (frame + slot.offset) = words slot := by
  rw [load_saveAll slot_apart, if_pos member]

/-- A call of ring 0 on behalf of the user switches to the thread pointer of ring 0. -/
theorem setG0FsBase_base (before : cpu.fsBase = cpu.percpu.ufsBase) :
    cpu.setG0FsBase.fsBase = cpu.percpu.kfsBase :=
  setFsBase_fsBase (fun _ => rfl) (fun _ => rfl) before

theorem setG3FsBase_base (before : cpu.fsBase = cpu.percpu.kfsBase) :
    cpu.setG3FsBase.fsBase = cpu.percpu.ufsBase :=
  setFsBase_fsBase (fun _ => rfl) (fun _ => rfl) before

/-- The switch on the way into ring 0, made for the user only. -/
def CpuState.enterRing0 (cpu : CpuState) (user : Bool) : CpuState := if user then cpu.setG0FsBase else cpu

/-- The switch on the way back. -/
def CpuState.leaveRing0 (cpu : CpuState) (user : Bool) : CpuState := if user then cpu.setG3FsBase else cpu

theorem switch_keeps {mode : BitVec 64} {own another : DunePercpu → BitVec 64} {next : CpuState} (user : Bool)
    (isNext : next = if user then cpu.setFsBase mode own another else cpu) :
    next.mem = cpu.mem ∧ next.cs = cpu.cs ∧ next.percpu = cpu.percpu.switch user mode ∧
      ∀ reg ∉ fsBaseRegs, next.regs reg = cpu.regs reg := by
  subst isNext
  cases user with
  | false => exact ⟨rfl, rfl, rfl, fun _ _ => rfl⟩
  | true =>
      rw [if_pos rfl]
      obtain ⟨mem, cs, percpu⟩ := @setFsBase_keeps cpu mode own another
      refine ⟨mem, cs, ?_, fun reg other => setFsBase_regs other⟩
      rw [percpu]
      rfl

theorem enterRing0_base {user : Bool}
    (before : cpu.fsBase = if user then cpu.percpu.ufsBase else cpu.percpu.kfsBase) :
    (cpu.enterRing0 user).fsBase = cpu.percpu.kfsBase := by
  cases user with
  | false => exact before
  | true => exact setG0FsBase_base before

theorem leaveRing0_base {user : Bool} (before : cpu.fsBase = cpu.percpu.kfsBase) :
    (cpu.leaveRing0 user).fsBase = if user then cpu.percpu.ufsBase else cpu.percpu.kfsBase := by
  cases user with
  | false => exact before
  | true => exact setG3FsBase_base before

theorem duneIntrWithNum_called {stubbed : CpuState} {frame : BitVec 64} {words : FrameSlot → BitVec 64}
    (rsp : stubbed.rsp = frame + regEnd)
    (regs : ∀ reg, reg ≠ .rsp → reg ≠ .rax → stubbed.regs reg = cpu.regs reg)
    (own : ∀ reg ∈ savedRegs true false, words (.reg reg) = cpu.regs reg)
    (selector : words .cs = cpu.cs.setWidth 64)
    (mem : stubbed.mem = saveAll FrameSlot.offset words frame stubSlots cpu.mem)
    (ring : stubbed.cs = gdKt) (percpu : stubbed.percpu = cpu.percpu)
    (fsBase : stubbed.fsBase = cpu.threadBase) :
    HandlerCalled cpu frame code.intrReturn trapSlots words (stubbed.duneIntrWithNum code) ∧
      (stubbed.duneIntrWithNum code).regs .rdi = stubbed.regs .rax ∧
      (stubbed.duneIntrWithNum code).regs .rsi = frame := by
  have bottom : stubbed.rsp - regEnd = frame := by rw [rsp, add_sub_cancel_right]
  obtain ⟨lowered, isLowered⟩ : ∃ lowered, lowered = stubbed.setReg .rsp (stubbed.rsp - regEnd) := ⟨_, rfl⟩
  have loweredRsp : lowered.rsp = frame := by rw [isLowered, ← bottom, CpuState.rsp, setReg_same]
  have loweredRegs : ∀ reg, reg ≠ .rsp → lowered.regs reg = stubbed.regs reg := by
    intro reg other
    rw [isLowered, setReg_other other]
  have savedMem : (lowered.save (savedRegs true false)).mem =
      saveAll FrameSlot.offset words frame trapSlots cpu.mem := by
    have before : lowered.mem = stubbed.mem := by rw [isLowered]; rfl
    rw [trapSlots, saveAll_append, ← mem, ← before, ← loweredRsp]
    refine save_words fun reg member => ?_
    have plain : reg ≠ .rsp ∧ reg ≠ .rax := by
      constructor <;> rintro rfl <;> exact absurd member (by decide)
    rw [own reg member, loweredRegs reg plain.1, regs reg plain.1 plain.2]
  obtain ⟨numbered, isNumbered⟩ : ∃ numbered, numbered =
      (lowered.save (savedRegs true false)).setReg .rdi (lowered.regs .rax) := ⟨_, rfl⟩
  have numberedRsp : numbered.rsp = frame := by
    rw [isNumbered, ← loweredRsp]
    exact setReg_other (by decide)
  have numberedMem : numbered.mem = saveAll FrameSlot.offset words frame trapSlots cpu.mem := by
    rw [isNumbered, ← savedMem]
    rfl
  have user : userSelector (load numbered.mem (numbered.rsp + tfCs)) = cpu.inUser := by
    have word : load numbered.mem (numbered.rsp + tfCs) = words .cs := by
      rw [numberedMem, numberedRsp, ← FrameSlot.offset_cs, load_slot (by decide)]
    rw [word, selector, userSelector_cs]
    rfl
  obtain ⟨ready, isReady⟩ : ∃ ready, ready = numbered.enterRing0 cpu.inUser := ⟨_, rfl⟩
  have call : stubbed.duneIntrWithNum code =
      (ready.setReg .rsi ready.rsp).call code.intrReturn code.trapHandler := by
    rw [isReady, CpuState.enterRing0, ← user, isNumbered, isLowered]
    rfl
  obtain ⟨keptMem, keptCs, keptPercpu, keptRegs⟩ := switch_keeps cpu.inUser isReady
  have readyRsp : ready.rsp = frame := (keptRegs .rsp (by decide)).trans numberedRsp
  have same : numbered.fsBase = stubbed.fsBase ∧ numbered.percpu = stubbed.percpu ∧
      numbered.cs = stubbed.cs := by
    rw [isNumbered, isLowered]
    exact ⟨rfl, rfl, rfl⟩
  have before : numbered.fsBase =
      if cpu.inUser then numbered.percpu.ufsBase else numbered.percpu.kfsBase := by
    rw [same.1, same.2.1, percpu]
    exact fsBase
  refine ⟨⟨?_, ?_, ?_, ?_, ?_, ?_⟩, ?_, ?_⟩
  · rw [call, call_rsp, ← readyRsp]
    rfl
  · intro reg member
    obtain ⟨kept, notRdi, notRsi, notRsp, notRax, _⟩ := rest_kept reg member
    rw [call, call_regs notRsp, setReg_other notRsi, keptRegs reg kept, isNumbered, setReg_other notRdi]
    exact (loweredRegs reg notRsp).trans (regs reg notRsp notRax)
  · rw [call, ← numberedMem, ← keptMem, ← readyRsp]
    rfl
  · rw [call, ← ring, ← same.2.2, ← keptCs]
    rfl
  · rw [call, ← percpu, ← same.2.1]
    have base : ready.fsBase = numbered.percpu.kfsBase := isReady ▸ enterRing0_base before
    exact base
  · rw [call]
    rw [← percpu, ← same.2.1]
    exact keptPercpu
  · rw [call, call_regs (by decide), setReg_other (by decide), keptRegs .rdi (by decide), isNumbered,
      setReg_same]
    exact loweredRegs .rax (by decide)
  · rw [call, call_regs (by decide), setReg_same, readyRsp]

theorem trapEntry_called (thread : cpu.fsBase = cpu.threadBase) :
    HandlerCalled cpu (cpu.trapFrame code vector) code.intrReturn trapSlots
      (cpu.frameWord (cpu.errorWord vector error)) (trapEntry code vector error cpu) ∧
      (trapEntry code vector error cpu).regs .rdi = BitVec.ofNat 64 vector ∧
      (trapEntry code vector error cpu).regs .rsi = cpu.trapFrame code vector := by
  have index : stubAt code (cpu.deliverTrap (setupIdt code) vector error).rip = vector :=
    stubAt_gate code vector
  have stub := @stub_entry cpu code vector error
  have entry : trapEntry code vector error cpu =
      ((cpu.deliverTrap (setupIdt code) vector error).duneIntrStub vector).duneIntrWithNum code := by
    rw [trapEntry, index]
  rw [entry]
  generalize (cpu.deliverTrap (setupIdt code) vector error).duneIntrStub vector = stubbed at stub
  have regs : stubbed.regs = Function.update (Function.update cpu.regs .rsp
      (cpu.trapFrame code vector + tfOffset .rax)) .rax (BitVec.ofNat 64 vector) := by rw [stub]
  have rax : stubbed.regs .rax = BitVec.ofNat 64 vector := by rw [regs, Function.update_self]
  rw [← rax]
  refine duneIntrWithNum_called ?_ ?_ ?_ rfl ?_ ?_ ?_ ?_
  · rw [CpuState.rsp, regs, Function.update_of_ne (by decide), Function.update_self]
    rfl
  · intro reg notRsp notRax
    rw [regs, Function.update_of_ne notRax, Function.update_of_ne notRsp]
  · exact fun reg _ => rfl
  · rw [stub]
  · rw [stub]
  · rw [stub]
  · rw [stub]
    exact thread

/-! And back. -/

theorem setWidth_cs (word : BitVec 64) : decide (word.setWidth 16 &&& 3 ≠ 0) = userSelector word := by
  have same : word.setWidth 16 &&& (3 : BitVec 16) = (word &&& 3).setWidth 16 := by
    rw [BitVec.setWidth_and]
    rfl
  have small : (word &&& 3).toNat < 2 ^ 16 := by
    have bound : (word &&& 3).toNat ≤ (3 : BitVec 64).toNat := Nat.and_le_right
    exact Nat.lt_of_le_of_lt bound (by decide)
  have zero : (word &&& 3).setWidth 16 = (0 : BitVec 16) ↔ word &&& 3 = 0 := by
    rw [← BitVec.toNat_inj, ← BitVec.toNat_inj, BitVec.toNat_setWidth, Nat.mod_eq_of_lt small]
    rfl
  rw [userSelector, same]
  simp only [ne_eq, zero]

/-- Every register is one that functions keep, one that is restored, or the stack pointer. -/
theorem reg_cases (reg : Reg) : reg ∈ restRegs ∨ reg ∈ restoredRegs true true ∨ reg = .rsp := by
  cases reg <;> decide

theorem trapExit_resumes {returned : CpuState} {frame : BitVec 64} (rsp : returned.rsp = frame)
    (base : returned.fsBase = returned.percpu.kfsBase) :
    (trapExit returned).context = frameContext returned.mem frame returned.regs ∧
      (trapExit returned).mem = returned.mem ∧
      (trapExit returned).percpu = returned.percpu.switch (trapExit returned).inUser 1 ∧
      (trapExit returned).fsBase = (trapExit returned).threadBase := by
  obtain ⟨left, isLeft⟩ : ∃ left, left =
      returned.leaveRing0 (userSelector (load returned.mem (returned.rsp + tfCs))) := ⟨_, rfl⟩
  obtain ⟨mem, _, percpu, regs⟩ := switch_keeps _ isLeft
  have leftRsp : left.rsp = frame := (regs .rsp (by decide)).trans rsp
  have exit : trapExit returned =
      ((left.restore (restoredRegs true true)).setReg .rsp (frame + efStart)).iretq := by
    have restoredRsp : (left.restore (restoredRegs true true)).rsp = frame := by
      rw [← leftRsp, CpuState.rsp, restore_regs, if_neg (by decide)]
      rfl
    rw [← restoredRsp, isLeft]
    rfl
  rw [iretq_frame] at exit
  have loaded : (left.restore (restoredRegs true true)).mem = returned.mem := mem
  rw [loaded] at exit
  have user : (trapExit returned).inUser = userSelector (load returned.mem (returned.rsp + tfCs)) := by
    rw [exit, CpuState.inUser, setWidth_cs, rsp]
  have area : (trapExit returned).percpu = returned.percpu.switch (trapExit returned).inUser 1 := by
    rw [user, ← percpu, exit]
    rfl
  refine ⟨?_, ?_, area, ?_⟩
  · rw [exit, CpuState.context, frameContext, Context.mk.injEq]
    refine ⟨funext fun reg => ?_, rfl, rfl, rfl, rfl⟩
    dsimp only
    rcases reg_cases reg with kept | restored | rfl
    · obtain ⟨free, _, _, notRsp, _⟩ := rest_kept reg kept
      have notRestored : reg ∉ restoredRegs true true := by
        revert kept
        cases reg <;> decide
      rw [if_pos kept, Function.update_of_ne notRsp, restore_regs, if_neg notRestored, regs reg free]
    · have notKept : reg ∉ restRegs ∧ reg ≠ .rsp := by
        revert restored
        cases reg <;> decide
      rw [if_neg notKept.1, Function.update_of_ne notKept.2, restore_regs, if_pos restored, leftRsp, mem]
    · rw [if_neg (by decide), Function.update_self]
  · rw [exit]
  · have fsBase : (trapExit returned).fsBase = left.fsBase := by
      rw [exit]
      rfl
    rw [CpuState.threadBase, area, user, fsBase, isLeft]
    exact leaveRing0_base base

/-! Traps. -/

variable {frame back : BitVec 64} {slots : List FrameSlot} {words : FrameSlot → BitVec 64}
  {entered : CpuState}

theorem FrameSlot.below (slot : FrameSlot) : WordsApart (-8) slot.offset := by
  cases slot with
  | reg name => cases name <;> decide
  | _ => decide

theorem HandlerCalled.slot (called : HandlerCalled cpu frame back slots words entered) {slot : FrameSlot}
    (member : slot ∈ slots) : load entered.mem (frame + slot.offset) = words slot := by
  rw [called.mem, sub_eq_add_neg, load_store_apart ((apart_add frame).mpr slot.below), load_slot member]

theorem FrameSlot.offset_bound (slot : FrameSlot) : slot.offset.toNat + 8 ≤ 168 := by
  cases slot with
  | reg name => cases name <;> decide
  | _ => decide

/-- Only the frame and the word below it are written. -/
theorem HandlerCalled.outside (called : HandlerCalled cpu frame back slots words entered)
    (far : 176 ≤ (addr - (frame - 8)).toNat) : entered.mem addr = cpu.mem addr := by
  have above : 168 ≤ (addr - frame).toNat := by
    have split : addr - frame = addr - (frame - 8) - 8 := by ring
    have eight : (8 : BitVec 64).toNat = 8 := rfl
    rw [split, BitVec.toNat_sub, eight]
    omega
  rw [called.mem, store_outside (Nat.le_trans (by decide) far),
    saveAll_outside (fun slot _ => slot.offset_bound) above]

/-- A trap has been taken: its handler is called at ring 0, with the vector, and with a frame that holds all
of the code that was left. -/
structure TrapTaken (code : DuneCode) (vector : Fin 256) (error : BitVec 64) (cpu entered : CpuState) :
    Prop where
  number : (entered.regs .rdi).toNat = vector
  argument : entered.regs .rsi = cpu.trapFrame code vector
  ring : entered.inUser = false
  fsBase : entered.fsBase = entered.percpu.kfsBase
  errorCode : pushesError vector = true → load entered.mem (cpu.trapFrame code vector + tfErr) = error
  context : frameContext entered.mem (cpu.trapFrame code vector) entered.regs = cpu.context
  percpu : entered.percpu = cpu.percpu.switch cpu.inUser 0
  outside : ∀ addr, 176 ≤ (addr - (cpu.trapFrame code vector - 8)).toNat → entered.mem addr = cpu.mem addr

theorem trapEntry_taken (thread : cpu.fsBase = cpu.threadBase) :
    TrapTaken code vector error cpu (trapEntry code vector error cpu) := by
  obtain ⟨called, rdi, rsi⟩ := @trapEntry_called cpu code vector error thread
  refine ⟨?_, rsi, ?_, ?_, ?_, ?_, called.percpu, fun addr far => called.outside far⟩
  · have small := vector.isLt
    rw [rdi, BitVec.toNat_ofNat]
    omega
  · rw [CpuState.inUser, called.ring]
    decide
  · rw [called.fsBase]
    rw [called.percpu]
    rfl
  · intro pushes
    have word := called.slot (show FrameSlot.err ∈ trapSlots by decide)
    dsimp only [FrameSlot.offset, CpuState.frameWord] at word
    rw [word, CpuState.errorWord, if_pos pushes]
  · have rip := called.slot (show FrameSlot.rip ∈ trapSlots by decide)
    have rflags := called.slot (show FrameSlot.rflags ∈ trapSlots by decide)
    have cs := called.slot (show FrameSlot.cs ∈ trapSlots by decide)
    have ss := called.slot (show FrameSlot.ss ∈ trapSlots by decide)
    dsimp only [FrameSlot.offset, CpuState.frameWord] at rip rflags cs ss
    have narrow : ∀ word : BitVec 16, (word.setWidth 64).setWidth 16 = word := by
      intro word
      rw [BitVec.setWidth_setWidth_of_le _ (by decide), BitVec.setWidth_eq]
    rw [frameContext, CpuState.context, Context.mk.injEq]
    refine ⟨funext fun reg => ?_, rip, rflags, ?_, ?_⟩
    · by_cases kept : reg ∈ restRegs
      · rw [if_pos kept, called.kept reg kept]
      · have member : FrameSlot.reg reg ∈ trapSlots := by
          revert kept
          cases reg <;> decide
        have word := called.slot member
        dsimp only [FrameSlot.offset, CpuState.frameWord] at word
        rw [if_neg kept, word]
    · rw [cs, narrow]
    · rw [ss, narrow]

end RdmaPaging
