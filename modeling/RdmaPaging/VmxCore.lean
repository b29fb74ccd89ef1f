import Mathlib.Logic.Function.Basic
import RdmaPaging.Machine

/-!
Virtual CPUs on the processors of the host: `vmx_get_cpu` and `vmx_put_cpu`, the call
`__vmx_get_cpu_helper` on another processor, the VM entry, and the life of a VCPU. Any
number of threads, one for each VCPU, run on any processors.
-/

namespace RdmaPaging

/-- Where the thread of a VCPU stands in `vmx_get_cpu`. -/
inductive GetStage (Cpu : Type)
  | outside
  | entered (cur : Cpu)
  | calling (cur target : Cpu)
  | cleared (cur : Cpu)
  | holding (cur : Cpu)
  deriving DecidableEq

/-- In the non-preemptible body of `vmx_get_cpu`. -/
@[grind =] def GetStage.inBody {Cpu : Type} : GetStage Cpu → Bool
  | .outside | .holding _ => false
  | .entered _ | .calling _ _ | .cleared _ => true

/-- The processor on which the thread has disabled preemption. -/
@[grind =] def GetStage.pinned {Cpu : Type} : GetStage Cpu → Option Cpu
  | .outside => none
  | .entered cur | .calling cur _ | .cleared cur | .holding cur => some cur

/-- The processors and the VCPUs. A VCPU and its VMCS have one name. For each processor:
`local_vcpu`, the VMCS that is current there, the VMCSs that are active there, and the
thread that has disabled preemption there. For each VCPU: whether it exists, the fields
`cpu` (none for -1), `launched` and `fail`, the stage of its thread, the launch state of its
VMCS, and whether the VMCS was cleared since the last launch. `bugOn` is set when the
assertion of the helper fails. -/
structure Vmx (Cpu Vcpu : Type) where
  localVcpu : Cpu → Option Vcpu
  current : Cpu → Option Vcpu
  active : Cpu → Vcpu → Bool
  pinnedBy : Cpu → Option Vcpu
  live : Vcpu → Bool
  cpu : Vcpu → Option Cpu
  launched : Vcpu → Bool
  fail : Vcpu → Bool
  stage : Vcpu → GetStage Cpu
  vmcsLaunched : Vcpu → Bool
  clearedSince : Vcpu → Bool
  bugOn : Bool

inductive VmxAction (Cpu Vcpu : Type)
  | createVcpu (vcpu : Vcpu) (garbage : Bool)
  | getCpu (vcpu : Vcpu) (cur : Cpu)
  | compareCpu (vcpu : Vcpu)
  | getCpuHelper (vcpu : Vcpu)
  | loadVmcs (vcpu : Vcpu)
  | runVcpu (vcpu : Vcpu) (entryOk : Bool)
  | putCpu (vcpu : Vcpu)
  | destroyVcpu (vcpu : Vcpu)

variable {Cpu Vcpu : Type} [DecidableEq Cpu] [DecidableEq Vcpu]

open Function (update)

def Vmx.setStage (state : Vmx Cpu Vcpu) (vcpu : Vcpu) (stage : GetStage Cpu) : Vmx Cpu Vcpu :=
  { state with stage := update state.stage vcpu stage }

/-- `vmcs_clear`, executed on `cur`. -/
def vmcsClear (state : Vmx Cpu Vcpu) (cur : Cpu) (vcpu : Vcpu) : Vmx Cpu Vcpu :=
  { state with
    current := update state.current cur
      (if state.current cur = some vcpu then none else state.current cur)
    active := update state.active cur (update (state.active cur) vcpu false)
    vmcsLaunched := update state.vmcsLaunched vcpu false
    clearedSince := update state.clearedSince vcpu true }

/-- `vmcs_load`, executed on `cur`. -/
def vmcsLoad (state : Vmx Cpu Vcpu) (cur : Cpu) (vcpu : Vcpu) : Vmx Cpu Vcpu :=
  { state with
    current := update state.current cur (some vcpu)
    active := update state.active cur (update (state.active cur) vcpu true) }

/-- The start of `vmx_get_cpu`: disable preemption and look at `local_vcpu`. -/
def getCpu (state : Vmx Cpu Vcpu) (vcpu : Vcpu) (cur : Cpu) : Vmx Cpu Vcpu :=
  if state.localVcpu cur = some vcpu then
    { state.setStage vcpu (.holding cur) with pinnedBy := update state.pinnedBy cur (some vcpu) }
  else
    { state.setStage vcpu (.entered cur) with
      pinnedBy := update state.pinnedBy cur (some vcpu)
      localVcpu := update state.localVcpu cur (some vcpu) }

/-- The test of `vcpu->cpu`, up to the call on another processor. -/
def compareCpu (state : Vmx Cpu Vcpu) (vcpu : Vcpu) (cur : Cpu) : Vmx Cpu Vcpu :=
  match state.cpu vcpu with
  | none => (vmcsClear state cur vcpu).setStage vcpu (.cleared cur)
  | some target =>
      if target = cur then (vmcsLoad state cur vcpu).setStage vcpu (.holding cur)
      else state.setStage vcpu (.calling cur target)

/-- `__vmx_get_cpu_helper`, executed on `target`. -/
def vmxGetCpuHelper (state : Vmx Cpu Vcpu) (vcpu : Vcpu) (cur target : Cpu) : Vmx Cpu Vcpu :=
  { (vmcsClear state target vcpu).setStage vcpu (.cleared cur) with
    bugOn := state.bugOn || state.cpu vcpu ≠ some target
    localVcpu := update state.localVcpu target
      (if state.localVcpu target = some vcpu then none else state.localVcpu target) }

/-- The end of `vmx_get_cpu` on a new processor. -/
def loadVmcs (state : Vmx Cpu Vcpu) (vcpu : Vcpu) (cur : Cpu) : Vmx Cpu Vcpu :=
  { (vmcsLoad state cur vcpu).setStage vcpu (.holding cur) with
    launched := update state.launched vcpu false
    cpu := update state.cpu vcpu (some cur) }

/-- The VM entry of `vmx_run_vcpu` on `cur`, for the VMCS that is current there: VMLAUNCH
wants a clear VMCS and VMRESUME a launched one. -/
def entrySucceeds (state : Vmx Cpu Vcpu) (vcpu : Vcpu) (cur : Cpu) (entryOk : Bool) : Bool :=
  match state.current cur with
  | some loaded => entryOk && state.vmcsLaunched loaded == state.launched vcpu
  | none => false

def vmxRunVcpu (state : Vmx Cpu Vcpu) (vcpu : Vcpu) (cur : Cpu) (entryOk : Bool) : Vmx Cpu Vcpu :=
  let entered := entrySucceeds state vcpu cur entryOk
  { state with
    vmcsLaunched := match state.current cur with
      | some loaded => if entered then update state.vmcsLaunched loaded true else state.vmcsLaunched
      | none => state.vmcsLaunched
    clearedSince := match state.current cur with
      | some loaded => update state.clearedSince loaded false
      | none => state.clearedSince
    launched := update state.launched vcpu true
    fail := update state.fail vcpu (!entered) }

def vmxPutCpu (state : Vmx Cpu Vcpu) (vcpu : Vcpu) (cur : Cpu) : Vmx Cpu Vcpu :=
  { state.setStage vcpu .outside with pinnedBy := update state.pinnedBy cur none }

/-- The end of `vmx_destroy_vcpu`, after its `vmx_get_cpu`. -/
def vmxDestroyVcpu (state : Vmx Cpu Vcpu) (vcpu : Vcpu) (cur : Cpu) : Vmx Cpu Vcpu :=
  { vmxPutCpu (vmcsClear state cur vcpu) vcpu cur with
    localVcpu := update state.localVcpu cur none
    live := update state.live vcpu false }

/-- The start of `vmx_create_vcpu`. What the new region of the VMCS holds is not known. -/
def vmxCreateVcpu (state : Vmx Cpu Vcpu) (vcpu : Vcpu) (garbage : Bool) : Vmx Cpu Vcpu :=
  { state.setStage vcpu .outside with
    live := update state.live vcpu true
    cpu := update state.cpu vcpu none
    launched := update state.launched vcpu false
    fail := update state.fail vcpu false
    vmcsLaunched := update state.vmcsLaunched vcpu garbage
    clearedSince := update state.clearedSince vcpu false }

/-- One step. After a failed entry the loop of `vmx_launch` does not enter again. -/
def vmxStep (state : Vmx Cpu Vcpu) : VmxAction Cpu Vcpu → Option (Vmx Cpu Vcpu)
  | .createVcpu vcpu garbage =>
      if state.live vcpu then none else some (vmxCreateVcpu state vcpu garbage)
  | .getCpu vcpu cur =>
      if state.live vcpu ∧ state.stage vcpu = .outside ∧ state.pinnedBy cur = none then
        some (getCpu state vcpu cur)
      else none
  | .compareCpu vcpu =>
      match state.stage vcpu with
      | .entered cur => some (compareCpu state vcpu cur)
      | _ => none
  | .getCpuHelper vcpu =>
      match state.stage vcpu with
      | .calling cur target => some (vmxGetCpuHelper state vcpu cur target)
      | _ => none
  | .loadVmcs vcpu =>
      match state.stage vcpu with
      | .cleared cur => some (loadVmcs state vcpu cur)
      | _ => none
  | .runVcpu vcpu entryOk =>
      match state.stage vcpu with
      | .holding cur => if state.fail vcpu then none else some (vmxRunVcpu state vcpu cur entryOk)
      | _ => none
  | .putCpu vcpu =>
      match state.stage vcpu with
      | .holding cur => some (vmxPutCpu state vcpu cur)
      | _ => none
  | .destroyVcpu vcpu =>
      match state.stage vcpu with
      | .holding cur => some (vmxDestroyVcpu state vcpu cur)
      | _ => none

/-- After `vmx_init`: VMX is enabled and there is no VCPU. -/
def bootVmx (Cpu Vcpu : Type) : Vmx Cpu Vcpu where
  localVcpu := fun _ => none
  current := fun _ => none
  active := fun _ _ => false
  pinnedBy := fun _ => none
  live := fun _ => false
  cpu := fun _ => none
  launched := fun _ => false
  fail := fun _ => false
  stage := fun _ => .outside
  vmcsLaunched := fun _ => false
  clearedSince := fun _ => false
  bugOn := false

end RdmaPaging
