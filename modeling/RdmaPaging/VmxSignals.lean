import RdmaPaging.VmxActive
import RdmaPaging.VmxLaunch

/-!
Signals in the loop of `vmx_launch`. A pending signal is dequeued after `vmx_put_cpu` and
written to the VM-entry injection field of the VMCS that is current on the processor where
the thread then runs; the next VM entry delivers the field to the guest and clears it.
-/

namespace RdmaPaging

def duneSignalIntrBase : Nat := 200

def intrInfoValidMask : BitVec 32 := 0x80000000#32

/-- The value written for a signal. -/
def signalIntrInfo (signr : Nat) : BitVec 32 :=
  BitVec.ofNat 32 (duneSignalIntrBase + signr) ||| intrInfoValidMask

/-- The vector that an injection field holds for the next entry. -/
def heldVector (field : BitVec 32) : List Nat :=
  if field &&& intrInfoValidMask ≠ 0 then [(field &&& 0xff#32).toNat] else []

/-- Where the thread of a VCPU stands in the loop: on its way to a VM entry, on its way to
`dequeue_signal`, handling a VM exit, or past the loop. -/
inductive LoopPc
  | top
  | signalled
  | exited
  | ending
  deriving DecidableEq

/-- The loops of all VCPUs. `dequeued` holds the signals that a loop has dequeued for its
guest and `delivered` the vectors that a guest was entered with; no step reads them. -/
structure SignalLoops (Cpu Vcpu : Type) where
  vmx : Vmx Cpu Vcpu
  pc : Vcpu → LoopPc
  intrInfo : Vcpu → BitVec 32
  dequeued : Vcpu → List Nat
  delivered : Vcpu → List Nat

inductive SignalAction (Cpu Vcpu : Type)
  | createVcpu (vcpu : Vcpu) (garbage : Bool)
  | getCpu (vcpu : Vcpu) (cur : Cpu)
  | compareCpu (vcpu : Vcpu)
  | getCpuHelper (vcpu : Vcpu)
  | loadVmcs (vcpu : Vcpu)
  | needResched (vcpu : Vcpu)
  | signalPending (vcpu : Vcpu)
  | dequeueSignal (vcpu : Vcpu) (cur : Cpu) (signr : Nat)
  | runVcpu (vcpu : Vcpu) (entryOk : Bool)
  | putCpu (vcpu : Vcpu)
  | handled (vcpu : Vcpu) (done : Bool)
  | destroyVcpu (vcpu : Vcpu)

variable {Cpu Vcpu : Type}

theorem heldVector_signal {signr : Nat} (small : signr < 56) :
    heldVector (signalIntrInfo signr) = [duneSignalIntrBase + signr] := by
  have cases : ∀ signr : Fin 56,
      heldVector (signalIntrInfo signr) = [duneSignalIntrBase + signr] := by decide
  exact cases ⟨signr, small⟩

theorem heldVector_zero : heldVector 0#32 = [] := by decide

/-- Every signal that the loop has dequeued was delivered once or waits in the injection
field, each with the vector of its number. -/
def SignalsKept (state : SignalLoops Cpu Vcpu) (vcpu : Vcpu) : Prop :=
  (state.dequeued vcpu).map (duneSignalIntrBase + ·) =
      state.delivered vcpu ++ heldVector (state.intrInfo vcpu) ∧
    ∀ signr ∈ state.dequeued vcpu, duneSignalIntrBase + signr < 256

theorem SignalsKept.congr {state next : SignalLoops Cpu Vcpu} {vcpu : Vcpu}
    (kept : SignalsKept state vcpu) (dequeued : next.dequeued vcpu = state.dequeued vcpu)
    (delivered : next.delivered vcpu = state.delivered vcpu)
    (intrInfo : next.intrInfo vcpu = state.intrInfo vcpu) : SignalsKept next vcpu := by
  unfold SignalsKept
  rw [dequeued, delivered, intrInfo]
  exact kept

open Function (update)

section Loop

variable [DecidableEq Cpu] [DecidableEq Vcpu]

def SignalLoops.onVmx (state : SignalLoops Cpu Vcpu) (action : VmxAction Cpu Vcpu) :
    Option (SignalLoops Cpu Vcpu) :=
  (vmxStep state.vmx action).map fun vmx => { state with vmx := vmx }

def SignalLoops.setPc (state : SignalLoops Cpu Vcpu) (vcpu : Vcpu) (pc : LoopPc) :
    SignalLoops Cpu Vcpu :=
  { state with pc := update state.pc vcpu pc }

/-- `vmx_create_vcpu` sets up the VMCS with an empty injection field. -/
def SignalLoops.fresh (state : SignalLoops Cpu Vcpu) (vcpu : Vcpu) : SignalLoops Cpu Vcpu :=
  { state.setPc vcpu .top with
    intrInfo := update state.intrInfo vcpu 0
    dequeued := update state.dequeued vcpu []
    delivered := update state.delivered vcpu [] }

/-- `vmcs_write32(VM_ENTRY_INTR_INFO_FIELD, x)` on `cur`. Without a current VMCS it fails. -/
def writeIntrInfo (state : SignalLoops Cpu Vcpu) (cur : Cpu) (field : BitVec 32) :
    SignalLoops Cpu Vcpu :=
  match state.vmx.current cur with
  | some loaded => { state with intrInfo := update state.intrInfo loaded field }
  | none => state

/-- From `dequeue_signal` to the next turn of the loop. -/
def takeSignal (state : SignalLoops Cpu Vcpu) (vcpu : Vcpu) (cur : Cpu) (signr : Nat) :
    SignalLoops Cpu Vcpu :=
  if signr = 0 then state.setPc vcpu .top
  else if signr = sigkill then state.setPc vcpu .ending
  else
    { (writeIntrInfo state cur (signalIntrInfo signr)).setPc vcpu .top with
      dequeued := update state.dequeued vcpu (state.dequeued vcpu ++ [signr]) }

/-- What a VM entry does to the injection field of the VMCS that it enters. -/
def deliver (state : SignalLoops Cpu Vcpu) (vcpu : Vcpu) (cur : Cpu) (entryOk : Bool) :
    SignalLoops Cpu Vcpu :=
  match state.vmx.current cur with
  | some loaded =>
      if entrySucceeds state.vmx vcpu cur entryOk then
        { state with
          intrInfo := update state.intrInfo loaded 0
          delivered := update state.delivered loaded
            (state.delivered loaded ++ heldVector (state.intrInfo loaded)) }
      else state
  | none => state

def signalStep (state : SignalLoops Cpu Vcpu) : SignalAction Cpu Vcpu →
    Option (SignalLoops Cpu Vcpu)
  | .createVcpu vcpu garbage =>
      (state.onVmx (.createVcpu vcpu garbage)).map fun next => next.fresh vcpu
  | .getCpu vcpu cur =>
      if state.pc vcpu = .signalled then none else state.onVmx (.getCpu vcpu cur)
  | .compareCpu vcpu => state.onVmx (.compareCpu vcpu)
  | .getCpuHelper vcpu => state.onVmx (.getCpuHelper vcpu)
  | .loadVmcs vcpu => state.onVmx (.loadVmcs vcpu)
  | .needResched vcpu => if state.pc vcpu = .top then state.onVmx (.putCpu vcpu) else none
  | .signalPending vcpu =>
      if state.pc vcpu = .top then
        (state.onVmx (.putCpu vcpu)).map fun next => next.setPc vcpu .signalled
      else none
  | .dequeueSignal vcpu cur signr =>
      if state.pc vcpu = .signalled ∧ state.vmx.pinnedBy cur = none ∧ signr ≤ 64 then
        some (takeSignal state vcpu cur signr)
      else none
  | .runVcpu vcpu entryOk =>
      match state.vmx.stage vcpu with
      | .holding cur =>
          if state.pc vcpu = .top then
            ((deliver state vcpu cur entryOk).onVmx (.runVcpu vcpu entryOk)).map fun next =>
              next.setPc vcpu .exited
          else none
      | _ => none
  | .putCpu vcpu =>
      if state.pc vcpu = .exited ∨ state.pc vcpu = .ending then state.onVmx (.putCpu vcpu)
      else none
  | .handled vcpu done =>
      if state.pc vcpu = .exited ∧ state.vmx.stage vcpu = .outside then
        some (state.setPc vcpu (if done then .ending else .top))
      else none
  | .destroyVcpu vcpu =>
      if state.pc vcpu = .ending then state.onVmx (.destroyVcpu vcpu) else none

def bootLoops (Cpu Vcpu : Type) : SignalLoops Cpu Vcpu where
  vmx := bootVmx Cpu Vcpu
  pc := fun _ => .top
  intrInfo := fun _ => 0
  dequeued := fun _ => []
  delivered := fun _ => []

/-- A signal is dequeued for the guest only when its vector exists, the injection field is
empty, and the VCPU's own VMCS is current where the thread runs. -/
def calmSignal (state : SignalLoops Cpu Vcpu) : SignalAction Cpu Vcpu → Prop
  | .dequeueSignal vcpu cur signr =>
      signr = 0 ∨ signr = sigkill ∨ (signr < 56 ∧ heldVector (state.intrInfo vcpu) = [] ∧
        state.vmx.current cur = some vcpu)
  | _ => True

end Loop

variable [DecidableEq Vcpu] {state next : SignalLoops Cpu Vcpu} {vcpu other : Vcpu} {cur : Cpu}

theorem SignalsKept.setPc (kept : SignalsKept state other) (vcpu : Vcpu) (pc : LoopPc) :
    SignalsKept (state.setPc vcpu pc) other := kept.congr rfl rfl rfl

theorem SignalsKept.fresh (kept : SignalsKept state other) : SignalsKept (state.fresh vcpu) other := by
  by_cases same : other = vcpu
  · subst same
    simp [SignalsKept, SignalLoops.fresh, heldVector_zero]
  · apply kept.congr <;> simp [SignalLoops.fresh, SignalLoops.setPc, same]

/-- A VM entry moves the vector from the field to the guest. -/
theorem SignalsKept.deliver (kept : SignalsKept state other) (entryOk : Bool) :
    SignalsKept (deliver state vcpu cur entryOk) other := by
  unfold RdmaPaging.deliver
  split
  · rename_i loaded isCurrent
    split
    · by_cases same : other = loaded
      · subst same
        obtain ⟨accounted, exist⟩ := kept
        refine ⟨?_, exist⟩
        simp [accounted, heldVector_zero]
      · apply kept.congr <;> simp [same]
    · exact kept
  · exact kept

/-- A signal taken while the field is empty fills it. -/
theorem SignalsKept.takeSignal {signr : Nat} (kept : SignalsKept state other)
    (calm : calmSignal state (.dequeueSignal vcpu cur signr)) :
    SignalsKept (takeSignal state vcpu cur signr) other := by
  unfold RdmaPaging.takeSignal
  by_cases isZero : signr = 0
  · rw [if_pos isZero]
    exact kept
  · rw [if_neg isZero]
    by_cases isKill : signr = sigkill
    · rw [if_pos isKill]
      exact kept
    · rw [if_neg isKill]
      obtain ⟨small, empty, isCurrent⟩ := (calm.resolve_left isZero).resolve_left isKill
      simp only [writeIntrInfo, isCurrent]
      by_cases same : other = vcpu
      · subst same
        obtain ⟨accounted, exist⟩ := kept
        rw [empty, List.append_nil] at accounted
        constructor
        · simp [SignalLoops.setPc, accounted, heldVector_signal small]
        · intro number member
          simp only [Function.update_self, List.mem_append, List.mem_singleton] at member
          rcases member with earlier | isLast
          · exact exist number earlier
          · subst isLast
            unfold duneSignalIntrBase
            omega
      · apply kept.congr <;> simp [SignalLoops.setPc, same]

variable [DecidableEq Cpu]

theorem SignalsKept.onVmx {action : VmxAction Cpu Vcpu} (kept : SignalsKept state vcpu)
    (stepped : state.onVmx action = some next) : SignalsKept next vcpu := by
  simp only [SignalLoops.onVmx, Option.map_eq_some_iff] at stepped
  obtain ⟨vmx, _, rfl⟩ := stepped
  exact kept

theorem SignalsKept.step {action : SignalAction Cpu Vcpu} (kept : SignalsKept state other)
    (calm : calmSignal state action) (stepped : signalStep state action = some next) :
    SignalsKept next other := by
  cases action with
  | createVcpu vcpu garbage =>
      simp only [signalStep, Option.map_eq_some_iff] at stepped
      obtain ⟨created, onVmx, rfl⟩ := stepped
      exact (kept.onVmx onVmx).fresh
  | getCpu vcpu cur =>
      simp only [signalStep, Option.ite_none_left_eq_some] at stepped
      exact kept.onVmx stepped.2
  | compareCpu vcpu => exact kept.onVmx stepped
  | getCpuHelper vcpu => exact kept.onVmx stepped
  | loadVmcs vcpu => exact kept.onVmx stepped
  | needResched vcpu =>
      simp only [signalStep, Option.ite_none_right_eq_some] at stepped
      exact kept.onVmx stepped.2
  | signalPending vcpu =>
      simp only [signalStep, Option.ite_none_right_eq_some, Option.map_eq_some_iff] at stepped
      obtain ⟨_, left, onVmx, rfl⟩ := stepped
      exact (kept.onVmx onVmx).setPc vcpu .signalled
  | dequeueSignal vcpu cur signr =>
      simp only [signalStep, Option.ite_none_right_eq_some, Option.some.injEq] at stepped
      obtain ⟨_, rfl⟩ := stepped
      exact kept.takeSignal calm
  | runVcpu vcpu entryOk =>
      simp only [signalStep] at stepped
      split at stepped
      · simp only [Option.ite_none_right_eq_some, Option.map_eq_some_iff] at stepped
        obtain ⟨_, entered, onVmx, rfl⟩ := stepped
        exact ((kept.deliver entryOk).onVmx onVmx).setPc vcpu .exited
      · simp at stepped
  | putCpu vcpu =>
      simp only [signalStep, Option.ite_none_right_eq_some] at stepped
      exact kept.onVmx stepped.2
  | handled vcpu done =>
      simp only [signalStep, Option.ite_none_right_eq_some, Option.some.injEq] at stepped
      obtain ⟨_, rfl⟩ := stepped
      exact kept
  | destroyVcpu vcpu =>
      simp only [signalStep, Option.ite_none_right_eq_some] at stepped
      exact kept.onVmx stepped.2

/-- No signal is lost in a run that takes each one calmly. -/
theorem dequeued_signals_kept {final : SignalLoops Cpu Vcpu}
    (reached : Machine.Reaches signalStep calmSignal (bootLoops Cpu Vcpu) final) (vcpu : Vcpu) :
    SignalsKept final vcpu := by
  refine reached.invariant (fun state => SignalsKept state vcpu) ?_ ?_
  · simp [SignalsKept, bootLoops, heldVector_zero]
  · intro state action next kept calm stepped
    exact kept.step calm stepped

/-- A VCPU is created and loaded on processor 0 and meets a pending signal there. -/
def firstSignal (signr : Nat) : List (SignalAction Nat Nat) :=
  [.createVcpu 0 false, .getCpu 0 0, .compareCpu 0, .loadVmcs 0, .needResched 0, .getCpu 0 0,
    .signalPending 0, .dequeueSignal 0 0 signr]

/-- The loop goes round and meets another signal before it enters the guest. -/
def secondSignal (signr : Nat) : List (SignalAction Nat Nat) :=
  [.getCpu 0 0, .signalPending 0, .dequeueSignal 0 0 signr]

/-- `calmSignal` as a check on a run. -/
def calmSignalCheck (state : SignalLoops Nat Nat) : SignalAction Nat Nat → Bool
  | .dequeueSignal vcpu cur signr =>
      signr = 0 || signr = sigkill || (signr < 56 && (heldVector (state.intrInfo vcpu)).isEmpty &&
        state.vmx.current cur = some vcpu)
  | _ => true

theorem calmSignalCheck_sound (state : SignalLoops Nat Nat) (action : SignalAction Nat Nat)
    (checked : calmSignalCheck state action = true) : calmSignal state action := by
  cases action with
  | dequeueSignal vcpu cur signr =>
      simpa [calmSignalCheck, calmSignal, or_assoc, and_assoc] using checked
  | _ => trivial

theorem dequeued_signals_kept_single :
    ∃ final, Machine.checkedRun signalStep calmSignalCheck (bootLoops Nat Nat)
        (firstSignal 10 ++ [.getCpu 0 0, .runVcpu 0 true]) = some final ∧
      final.dequeued 0 = [10] ∧ final.delivered 0 = [210] ∧ SignalsKept final 0 :=
  ⟨_, rfl, rfl, rfl, dequeued_signals_kept (Machine.reaches_of_checkedRun calmSignalCheck
    (firstSignal 10 ++ [.getCpu 0 0, .runVcpu 0 true]) calmSignalCheck_sound rfl) 0⟩

/-- Of two signals that are pending at once the first is overwritten. -/
theorem second_signal_overwrites_first :
    ∃ final, Machine.Reaches signalStep (fun _ _ => True) (bootLoops Nat Nat) final ∧
      final.dequeued 0 = [10, 12] ∧ final.delivered 0 = [] ∧
      heldVector (final.intrInfo 0) = [212] ∧ ¬ SignalsKept final 0 := by
  refine ⟨_, Machine.reaches_of_checkedRun (fun _ _ => true) (firstSignal 10 ++ secondSignal 12)
    (fun _ _ _ => trivial) rfl, rfl, rfl, rfl, ?_⟩
  intro kept
  exact absurd kept.1 (by decide)

end RdmaPaging
