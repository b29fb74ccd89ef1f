import RdmaPaging.FirewallCore
import RdmaPaging.SandboxTrap

/-!
The system call monitor of the firewall, `firewall.c`, behind the checks of the sandbox.
-/

namespace RdmaPaging

def afInet : Nat := 2

def sockaddrInSize : BitVec 32 := 16#32

/-! The fields of a `struct sockaddr_in`. -/

def sinFamily (mem : AppMem) (addr : VirtAddr) : Nat := mem.load 2 addr

/-- `ntohs(a->sin_port)`: the high byte comes first. -/
def sinPort (mem : AppMem) (addr : VirtAddr) : BitVec 16 := mem (addr + 2) ++ mem (addr + 3)

def sinAddr (mem : AppMem) (addr : VirtAddr) : BitVec 32 := BitVec.ofNat 32 (mem.load 4 (addr + 4))

def checkBind (rules : List FwRule) (mem : AppMem) (addr : VirtAddr) (len : BitVec 32) : Bool :=
  if len = sockaddrInSize ∧ sinFamily mem addr = afInet then
    firewallCheckBind (sinPort mem addr) rules
  else true

def checkConnect (rules : List FwRule) (mem : AppMem) (addr : VirtAddr) (len : BitVec 32) : Bool :=
  if len = sockaddrInSize ∧ sinFamily mem addr = afInet then
    firewallCheckConnect (sinPort mem addr) (sinAddr mem addr) rules
  else true

def syscallMonitor (rules : List FwRule) : SyscallMonitor := fun mem tf =>
  let answer := fun (status : Bool) => (status, if status then tf else { tf with rax := negEperm })
  match tf.call with
  | .bind => answer (checkBind rules mem tf.rsi (tf.rdx.setWidth 32))
  | .connect => answer (checkConnect rules mem tf.rsi (tf.rdx.setWidth 32))
  | _ => (true, tf)

/-- `syscall_handler` of the firewall, once `main` has registered the monitor. -/
def firewallHandler (rules : List FwRule) (mem : AppMem) (tf : DuneTf) : Handled :=
  syscallHandler (some (syscallMonitor rules)) mem tf

/-! Mediation. -/

def IsSockCall (tf : DuneTf) : Prop := tf.call = .bind ∨ tf.call = .connect

/-- The length as the kernel reads it. -/
def DuneTf.addrLen (tf : DuneTf) : Nat := (tf.rdx.setWidth 32).toNat

/-- The kernel takes the address as an IPv4 one. -/
structure KernelInet (mem : AppMem) (tf : DuneTf) : Prop where
  family : sinFamily mem tf.rsi = afInet
  atLeast : 16 ≤ tf.addrLen
  atMost : tf.addrLen ≤ 128

/-- What the rules say about the address of a bind or a connect. -/
def rulesAllow (rules : List FwRule) (mem : AppMem) (tf : DuneTf) : Bool :=
  if tf.call = .bind then firewallCheckBind (sinPort mem tf.rsi) rules
  else firewallCheckConnect (sinPort mem tf.rsi) (sinAddr mem tf.rsi) rules

/-- A bind or connect for an IPv4 address goes to the host only if the rules allow it, and one
that does not go there has a negative result. -/
def Mediated (rules : List FwRule) (mem : AppMem) (tf : DuneTf) : Prop :=
  match firewallHandler rules mem tf with
  | .passedThrough out => IsSockCall out → KernelInet mem out → rulesAllow rules mem out = true
  | .refused out => IsSockCall tf → out.rax.toInt < 0
  | _ => ¬ IsSockCall tf

/-- The address is refused before the monitor sees it. A null one is not. -/
def AddressRefused (tf : DuneTf) : Prop :=
  tf.rsi ≠ 0 ∧ tf.rdx ≠ 0 ∧ ¬ memRefIsSafe tf.rsi tf.rdx = true

instance : DecidablePred AddressRefused := fun _ => inferInstanceAs (Decidable (_ ∧ _ ∧ _))

/-- The monitor looks at the address and the rules do not allow it. -/
def RulesRefuse (rules : List FwRule) (mem : AppMem) (tf : DuneTf) : Prop :=
  (tf.rdx.setWidth 32 = sockaddrInSize ∧ sinFamily mem tf.rsi = afInet) ∧
    rulesAllow rules mem tf = false

instance (rules : List FwRule) (mem : AppMem) : DecidablePred (RulesRefuse rules mem) :=
  fun _ => inferInstanceAs (Decidable ((_ ∧ _) ∧ _))

section Call

variable {tf : DuneTf} (rules : List FwRule) (mem : AppMem)

theorem syscallCheckParams_call (isCall : IsSockCall tf) :
    syscallCheckParams mem tf =
      if AddressRefused tf then .refused { tf with rax := negEfault } else .passed := by
  have params : syscallParams mem tf tf.call = .checked { ptr := tf.rsi, len := tf.rdx } := by
    rcases isCall with isCall | isCall <;> rw [isCall] <;> rfl
  have error : paramsError mem { ptr := tf.rsi, len := tf.rdx } =
      if AddressRefused tf then negEfault else 0 := by
    simp [paramsError, AddressRefused, checkExtent]
  rw [syscallCheckParams, params]
  simp only [error]
  by_cases refused : AddressRefused tf
  · rw [if_pos refused, if_pos refused, if_pos (by decide)]
  · rw [if_neg refused, if_neg refused, if_neg (by decide)]

theorem syscallMonitor_call (isCall : IsSockCall tf) :
    syscallMonitor rules mem tf =
      if RulesRefuse rules mem tf then (false, { tf with rax := negEperm }) else (true, tf) := by
  by_cases inet : tf.rdx.setWidth 32 = sockaddrInSize ∧ sinFamily mem tf.rsi = afInet
  · rcases isCall with isCall | isCall
    · cases allows : firewallCheckBind (sinPort mem tf.rsi) rules <;>
        simp [syscallMonitor, isCall, checkBind, RulesRefuse, rulesAllow, inet, allows]
    · cases allows : firewallCheckConnect (sinPort mem tf.rsi) (sinAddr mem tf.rsi) rules <;>
        simp [syscallMonitor, isCall, checkConnect, RulesRefuse, rulesAllow, inet, allows]
  · rcases isCall with isCall | isCall <;>
      simp [syscallMonitor, isCall, checkBind, checkConnect, RulesRefuse, inet]

theorem firewallHandler_call (isCall : IsSockCall tf) :
    firewallHandler rules mem tf =
      if AddressRefused tf then .refused { tf with rax := negEfault }
      else if RulesRefuse rules mem tf then .refused { tf with rax := negEperm }
      else .passedThrough tf := by
  have goesOn : syscallDo tf = .passedThrough tf := by
    rcases isCall with isCall | isCall <;> rw [syscallDo, isCall]
  rw [firewallHandler, syscallHandler, syscallCheckParams_call mem isCall]
  by_cases refused : AddressRefused tf
  · rw [if_pos refused, if_pos refused]
  · rw [if_neg refused, if_neg refused]
    simp only [syscallAllow, syscallMonitor_call rules mem isCall]
    by_cases ruled : RulesRefuse rules mem tf
    · rw [if_pos ruled, if_pos ruled]
    · rw [if_neg ruled, if_neg ruled]
      exact goesOn

theorem syscallDo_frame (tf : DuneTf) :
    syscallDo tf = .emulated tf ∨ syscallDo tf = .passedThrough tf := by
  rw [syscallDo]
  split <;> simp

theorem firewallHandler_other (other : ¬ IsSockCall tf) {out : DuneTf}
    (through : firewallHandler rules mem tf = .passedThrough out) : out = tf := by
  have allowed : syscallMonitor rules mem tf = (true, tf) := by
    rw [syscallMonitor]
    split
    · rename_i isBind
      exact absurd (Or.inl isBind) other
    · rename_i isConnect
      exact absurd (Or.inr isConnect) other
    · rfl
  rw [firewallHandler, syscallHandler] at through
  cases check : syscallCheckParams mem tf with
  | aborted => simp [check] at through
  | refused out => simp [check] at through
  | passed =>
      simp only [check, syscallAllow, allowed] at through
      rcases syscallDo_frame tf with emulated | passed
      · simp [emulated] at through
      · simpa [passed, eq_comm] using through

/-- A bind or connect is mediated unless its IPv4 address passes the check of its extent with a
length other than that of a `sockaddr_in`, and the rules do not allow it. -/
theorem mediated_iff (tf : DuneTf) :
    Mediated rules mem tf ↔
      ¬ (IsSockCall tf ∧ ¬ AddressRefused tf ∧ KernelInet mem tf ∧ tf.addrLen ≠ 16 ∧
        rulesAllow rules mem tf = false) := by
  by_cases isCall : IsSockCall tf
  · have exact : tf.rdx.setWidth 32 = sockaddrInSize ↔ tf.addrLen = 16 := BitVec.toNat_inj.symm
    rw [Mediated, firewallHandler_call rules mem isCall]
    by_cases refused : AddressRefused tf
    · have negative : negEfault.toInt < 0 := by decide
      simp [refused, negative]
    · by_cases ruled : RulesRefuse rules mem tf
      · have negative : negEperm.toInt < 0 := by decide
        have same : tf.addrLen = 16 := exact.mp ruled.1.1
        simp [refused, ruled, negative, same]
      · rw [if_neg refused, if_neg ruled]
        constructor
        · rintro mediated ⟨-, -, inet, -, denied⟩
          rw [mediated isCall inet] at denied
          exact Bool.noConfusion denied
        · intro noBypass _ inet
          by_contra denied
          rw [Bool.not_eq_true] at denied
          refine noBypass ⟨isCall, refused, inet, ?_, denied⟩
          intro same
          exact ruled ⟨⟨exact.mpr same, inet.family⟩, denied⟩
  · have mediated : Mediated rules mem tf := by
      rw [Mediated]
      split
      · rename_i out through
        rw [firewallHandler_other rules mem isCall through]
        exact fun sock => absurd sock isCall
      · exact fun sock => absurd sock isCall
      · exact isCall
    exact ⟨fun _ bypass => isCall bypass.1, fun _ => mediated⟩

end Call

/-- A connect to port 80 of 10.0.0.1 with a length of 17 bytes. -/
def longConnect : DuneTf := ⟨42, 3, 0x1000, 17, 0, 0⟩

def longConnectMem : AppMem := fun addr =>
  match addr.toNat with
  | 0x1000 => 2
  | 0x1003 => 80
  | 0x1004 => 10
  | 0x1007 => 1
  | _ => 0

theorem long_connect_unmediated :
    firewallHandler [] longConnectMem longConnect = .passedThrough longConnect ∧
    KernelInet longConnectMem longConnect ∧
    firewallCheckConnect 80#16 0x0100000a#32 [] = false ∧
    ¬ Mediated [] longConnectMem longConnect := by
  have inet : KernelInet longConnectMem longConnect := ⟨by decide, by decide, by decide⟩
  have through : firewallHandler [] longConnectMem longConnect = .passedThrough longConnect := rfl
  refine ⟨through, inet, rfl, ?_⟩
  rw [Mediated, through]
  intro mediated
  exact absurd (mediated (Or.inr rfl) inet) (by decide)

end RdmaPaging
