import RdmaPaging.Machine
import RdmaPaging.UmmCore

/-!
Threads of the sandbox that ask for memory at the same time. `syscall_do` takes
`_syscall_mtx` for `SYS_mmap`, but not for `SYS_mremap`, `SYS_shmat` and `SYS_brk`, and
every call reads and writes `brk_len` and `mmap_len` in steps of its own.
-/

namespace RdmaPaging

/-- A call that is given a range of the library's choice. -/
inductive MemCall
  | mmap (len : Size)
  | mremap (newSize : Size)
  | shmat (len : Size)
  | brk (newBrk : VirtAddr)
  deriving DecidableEq

/-- `need_lock` of `syscall_do`. -/
def MemCall.needLock : MemCall → Bool
  | .mmap _ => true
  | .mremap _ | .shmat _ | .brk _ => false

/-- The length that is handed to `umm_space_left`. -/
def MemCall.need : MemCall → Size
  | .mmap len | .mremap len | .shmat len => len
  | .brk newBrk => pgRound (newBrk - ummAddrStart)

def MemCall.isBrk : MemCall → Bool
  | .brk _ => true
  | _ => false

/-- Where a thread stands in a call. -/
inductive CallStage
  | idle
  | called (call : MemCall)
  | entered (call : MemCall)
  | checked (call : MemCall)
  | placed (call : MemCall) (addr : VirtAddr) (len : Size)
  | mapped (call : MemCall) (addr : VirtAddr)
  | loaded (call : MemCall) (addr : VirtAddr) (mmapLen : Size)

/-- The call that a thread is executing. -/
@[grind =] def CallStage.running : CallStage → Option MemCall
  | .idle | .called _ => none
  | .entered call | .checked call | .placed call _ _ | .mapped call _ | .loaded call _ _ =>
      some call

/-- The counters, the lock and the threads. `given` holds the start and the length of each
range that a successful call other than `brk` was given, the latest first, and `brkGiven`
the length of the area that the last successful `brk` was given; no step reads them. -/
structure MemCalls where
  brkLen : Size
  mmapLen : Size
  syscallMtx : Option Nat
  stage : Nat → CallStage
  given : List (Nat × Nat)
  brkGiven : Nat

inductive MemAction
  | call (tid : Nat) (call : MemCall)
  | enter (tid : Nat)
  | check (tid : Nat)
  | place (tid : Nat)
  | hostMap (tid : Nat) (willing : Bool)
  | load (tid : Nat)
  | store (tid : Nat)

open Function (update)

def MemCalls.setStage (state : MemCalls) (tid : Nat) (stage : CallStage) : MemCalls :=
  { state with stage := update state.stage tid stage }

/-- The thread leaves `syscall_do`. -/
def MemCalls.leave (state : MemCalls) (tid : Nat) : MemCalls :=
  { state.setStage tid .idle with
    syscallMtx := if state.syscallMtx = some tid then none else state.syscallMtx }

/-- A break that `umm_brk` answers at once. -/
def MemCall.answered : MemCall → Bool
  | .brk newBrk => newBrk = 0 || newBrk < ummAddrStart
  | _ => false

/-- The checks before anything is mapped. -/
def checkSpace (state : MemCalls) (tid : Nat) (call : MemCall) : MemCalls :=
  if call.answered || !ummSpaceLeft state.brkLen state.mmapLen call.need then state.leave tid
  else state.setStage tid (.checked call)

/-- The range to map, or for a smaller break to unmap. -/
def placeCall (state : MemCalls) (tid : Nat) (call : MemCall) : MemCalls :=
  match call with
  | .brk _ =>
      if call.need = state.brkLen then { state.leave tid with brkGiven := call.need.toNat }
      else if call.need < state.brkLen then
        state.setStage tid
          (.placed call (ummAddrStart + call.need) (state.brkLen - call.need))
      else
        state.setStage tid
          (.placed call (ummAddrStart + state.brkLen) (call.need - state.brkLen))
  | _ => state.setStage tid (.placed call (ummNextPos state.mmapLen call.need) call.need)

def memStep (state : MemCalls) : MemAction → Option MemCalls
  | .call tid call =>
      match state.stage tid with
      | .idle => some (state.setStage tid (.called call))
      | _ => none
  | .enter tid =>
      match state.stage tid with
      | .called call =>
          if call.needLock then
            if state.syscallMtx = none then
              some { state.setStage tid (.entered call) with syscallMtx := some tid }
            else none
          else some (state.setStage tid (.entered call))
      | _ => none
  | .check tid =>
      match state.stage tid with
      | .entered call => some (checkSpace state tid call)
      | _ => none
  | .place tid =>
      match state.stage tid with
      | .checked call => some (placeCall state tid call)
      | _ => none
  | .hostMap tid willing =>
      match state.stage tid with
      | .placed call addr len =>
          if willing && len ≠ 0 && hostFits addr len then
            some (state.setStage tid (.mapped call addr))
          else some (state.leave tid)
      | _ => none
  | .load tid =>
      match state.stage tid with
      | .mapped call addr =>
          if call.isBrk then none else some (state.setStage tid (.loaded call addr state.mmapLen))
      | _ => none
  | .store tid =>
      match state.stage tid with
      | .mapped call _ =>
          if call.isBrk then
            some { state.leave tid with brkLen := call.need, brkGiven := call.need.toNat }
          else none
      | .loaded call addr mmapLen =>
          some { state.leave tid with
            mmapLen := mmapLen + pgRound call.need
            given := (addr.toNat, (pgRound call.need).toNat) :: state.given }
      | _ => none

/-- Two ranges of a start and a length. -/
def rangesApart (left right : Nat × Nat) : Prop :=
  left.1 + left.2 ≤ right.1 ∨ right.1 + right.2 ≤ left.1

/-- The successful calls were given ranges that do not overlap, and the counters hold all
their updates. -/
structure CallsApart (start state : MemCalls) : Prop where
  ranges : state.given.Pairwise rangesApart
  heap : ∀ range ∈ state.given, rangesApart (ummAddrStart.toNat, state.brkGiven) range
  mmapLen : state.mmapLen.toNat = start.mmapLen.toNat + (state.given.map Prod.snd).sum
  brkLen : state.brkLen.toNat = state.brkGiven

/-- No thread is in a call, and the areas in use fit in the address range of the library. -/
structure CallsStart (start : MemCalls) : Prop where
  idle : ∀ tid, start.stage tid = .idle
  free : start.syscallMtx = none
  brkAligned : start.brkLen.toNat % 4096 = 0
  mmapAligned : start.mmapLen.toNat % 4096 = 0
  room : start.brkLen.toNat + start.mmapLen.toNat ≤ 0x400000000
  given : start.given = []
  brkGiven : start.brkGiven = start.brkLen.toNat

/-- A call starts only while no other thread is executing one, unless both take the lock. -/
def callsOneByOne (state : MemCalls) : MemAction → Prop
  | .enter tid => ∀ call, state.stage tid = .called call → ∀ other running,
      (state.stage other).running = some running → call.needLock = true ∧ running.needLock = true
  | _ => True

/-! Lengths as numbers. -/

theorem pgRound_toNat (len : Size) :
    (pgRound len).toNat = (len.toNat + 4095) % 2 ^ 64 / 4096 * 4096 := by
  have masked := fieldMask_and (len + 0xfff#64).toNat 52 12
  have sum : (len + 0xfff#64).toNat = (len.toNat + 4095) % 2 ^ 64 := by
    rw [BitVec.toNat_add]
    rfl
  have mask : (~~~ 0xfff#64 : BitVec 64).toNat = (2 ^ 52 - 1) * 2 ^ 12 := by decide
  rw [pgRound, BitVec.toNat_and, mask, masked, sum]
  omega

/-- Within the host's bound a length is rounded up. -/
theorem pgRound_bounds {len : Size} (bound : len.toNat ≤ 2 ^ 47) :
    len.toNat ≤ (pgRound len).toNat ∧ (pgRound len).toNat < len.toNat + 4096 ∧
      (pgRound len).toNat % 4096 = 0 := by
  rw [pgRound_toNat]
  omega

theorem ummSpaceLeft_iff (brkLen mmapLen len : Size) : ummSpaceLeft brkLen mmapLen len = true ↔
    (brkLen.toNat + mmapLen.toNat + len.toNat) % 2 ^ 64 < 0x400000000 := by
  have size : (ummAddrEnd - ummAddrStart).toNat = 0x400000000 := by decide
  simp only [ummSpaceLeft, decide_eq_true_eq, BitVec.lt_def, size, BitVec.toNat_add]
  omega

theorem hostFits_bound {addr : VirtAddr} {len : Size} (fits : hostFits addr len = true) :
    len.toNat ≤ 2 ^ 47 := by
  simp only [hostFits, Bool.and_eq_true, decide_eq_true_eq] at fits
  omega

theorem ummNextPos_toNat {mmapLen len : Size}
    (room : mmapLen.toNat + (pgRound len).toNat ≤ 0x400000000) :
    (ummNextPos mmapLen len).toNat = 0x700000000 - mmapLen.toNat - (pgRound len).toNat := by
  have last : ummAddrEnd.toNat = 0x700000000 := rfl
  rw [ummNextPos, ummGetMapPos, BitVec.toNat_sub, BitVec.toNat_sub, last]
  omega

/-! The invariant. -/

/-- What a thread in a call relies on, as long as no other thread changes the counters. -/
def StageFits (brkLen mmapLen : Size) : CallStage → Prop
  | .idle | .called _ | .entered _ => True
  | .checked call => ummSpaceLeft brkLen mmapLen call.need = true
  | .placed call addr len => ummSpaceLeft brkLen mmapLen call.need = true ∧
      (call.isBrk = false → addr = ummNextPos mmapLen call.need ∧ len = call.need) ∧
      (call.isBrk = true → call.need < brkLen ∨ len = call.need - brkLen ∧ brkLen ≤ call.need)
  | .mapped call addr => ummSpaceLeft brkLen mmapLen call.need = true ∧
      (call.isBrk = false → addr = ummNextPos mmapLen call.need ∧ call.need.toNat ≤ 2 ^ 47) ∧
      (call.isBrk = true → call.need.toNat ≤ brkLen.toNat + 2 ^ 47)
  | .loaded call addr old => ummSpaceLeft brkLen mmapLen call.need = true ∧
      addr = ummNextPos mmapLen call.need ∧ call.need.toNat ≤ 2 ^ 47 ∧ old = mmapLen

structure CallsInv (start state : MemCalls) : Prop where
  single : ∀ tid other call running, (state.stage tid).running = some call →
    (state.stage other).running = some running → other = tid
  locked : ∀ tid call, (state.stage tid).running = some call → call.needLock = true →
    state.syscallMtx = some tid
  brkAligned : state.brkLen.toNat % 4096 = 0
  mmapAligned : state.mmapLen.toNat % 4096 = 0
  room : state.brkLen.toNat + state.mmapLen.toNat ≤ 0x400000000
  inside : ∀ range ∈ state.given, 0x700000000 - state.mmapLen.toNat ≤ range.1 ∧
    range.1 + range.2 ≤ 0x700000000
  apart : state.given.Pairwise rangesApart
  total : state.mmapLen.toNat = start.mmapLen.toNat + (state.given.map Prod.snd).sum
  brkGiven : state.brkGiven = state.brkLen.toNat
  fits : ∀ tid, StageFits state.brkLen state.mmapLen (state.stage tid)

variable {start state next : MemCalls} {tid : Nat} {call : MemCall}

theorem CallsStart.inv (ready : CallsStart start) : CallsInv start start := by
  have nobody : ∀ tid, (start.stage tid).running = none := by
    intro tid
    rw [ready.idle tid]
    rfl
  refine ⟨fun tid _ call _ runs => ?_, fun tid call runs => ?_, ready.brkAligned,
    ready.mmapAligned, ready.room, ?_, ?_, ?_, ready.brkGiven, fun tid => ?_⟩
  · simp [nobody tid] at runs
  · simp [nobody tid] at runs
  · simp [ready.given]
  · simp [ready.given]
  · simp [ready.given]
  · rw [ready.idle tid]
    trivial

theorem CallsInv.callsApart (inv : CallsInv start state) : CallsApart start state := by
  refine ⟨inv.apart, fun range member => ?_, inv.total, inv.brkGiven.symm⟩
  have inside := inv.inside range member
  have room := inv.room
  have first : ummAddrStart.toNat = 0x300000000 := rfl
  left
  rw [inv.brkGiven, first]
  omega

theorem StageFits.of_quiet {stage : CallStage} (quiet : stage.running = none)
    (brkLen mmapLen : Size) : StageFits brkLen mmapLen stage := by
  cases stage <;> simp_all [CallStage.running, StageFits]

/-- A thread goes on with its call and leaves the counters alone. -/
theorem CallsInv.move (inv : CallsInv start state) (tid : Nat) (stage : CallStage)
    (same : ∀ call, stage.running = some call → (state.stage tid).running = some call)
    (fits : StageFits state.brkLen state.mmapLen stage) :
    CallsInv start (state.setStage tid stage) := by
  have runs : ∀ other call, ((state.setStage tid stage).stage other).running = some call →
      (state.stage other).running = some call := by
    intro other call
    simp only [MemCalls.setStage, Function.update_apply]
    split
    · rename_i isTid
      subst isTid
      exact same call
    · exact id
  refine { inv with single := ?_, locked := ?_, fits := ?_ }
  · intro one other call running oneRuns otherRuns
    exact inv.single one other call running (runs _ _ oneRuns) (runs _ _ otherRuns)
  · intro other call otherRuns
    exact inv.locked other call (runs _ _ otherRuns)
  · intro other
    simp only [MemCalls.setStage, Function.update_apply]
    split
    · exact fits
    · exact inv.fits other

theorem CallsInv.leave (inv : CallsInv start state) (tid : Nat) :
    CallsInv start (state.leave tid) := by
  have moved := inv.move tid .idle (by simp [CallStage.running]) trivial
  refine { moved with locked := ?_ }
  intro other call otherRuns needLock
  have held := moved.locked other call otherRuns needLock
  have different : other ≠ tid := by
    intro isTid
    subst isTid
    simp [MemCalls.leave, MemCalls.setStage, CallStage.running] at otherRuns
  have here : state.syscallMtx = some other := held
  simp only [MemCalls.leave, here]
  rw [if_neg (by simpa using different)]

/-- Once the only running thread has left, no thread is in a call. -/
theorem CallsInv.quiet (inv : CallsInv start state) (runs : (state.stage tid).running = some call)
    (other : Nat) : ((state.leave tid).stage other).running = none := by
  by_cases isTid : other = tid
  · subst isTid
    simp [MemCalls.leave, MemCalls.setStage, CallStage.running]
  · have stays : (state.leave tid).stage other = state.stage other := by
      simp [MemCalls.leave, MemCalls.setStage, isTid]
    rw [stays]
    by_contra running
    obtain ⟨otherCall, otherRuns⟩ := Option.ne_none_iff_exists'.mp running
    exact isTid (inv.single tid other call otherCall runs otherRuns)

theorem CallsInv.enter (inv : CallsInv start state) (called : state.stage tid = .called call)
    (alone : ∀ other running, (state.stage other).running ≠ some running) (mtx : Option Nat)
    (locks : call.needLock = true → mtx = some tid) :
    CallsInv start { state.setStage tid (.entered call) with syscallMtx := mtx } := by
  have onlyTid : ∀ other running,
      ((state.setStage tid (.entered call)).stage other).running = some running →
      other = tid ∧ running = call := by
    intro other running
    simp only [MemCalls.setStage, Function.update_apply]
    split
    · rename_i isTid
      intro runs
      exact ⟨isTid, (Option.some.inj runs).symm⟩
    · intro runs
      exact absurd runs (alone other running)
  refine { inv with single := ?_, locked := ?_, fits := ?_ }
  · intro one other first second oneRuns otherRuns
    rw [(onlyTid one first oneRuns).1, (onlyTid other second otherRuns).1]
  · intro other running otherRuns needLock
    obtain ⟨rfl, rfl⟩ := onlyTid other running otherRuns
    exact locks needLock
  · intro other
    simp only [MemCalls.setStage, Function.update_apply]
    split
    · trivial
    · exact inv.fits other

theorem CallsInv.checkSpace (inv : CallsInv start state) (entered : state.stage tid = .entered call) :
    CallsInv start (checkSpace state tid call) := by
  unfold RdmaPaging.checkSpace
  split
  · exact inv.leave tid
  · rename_i passes
    refine inv.move tid _ (fun other runs => ?_) ?_
    · rw [entered]
      exact runs
    · simp only [Bool.or_eq_true, Bool.not_eq_true', not_or, Bool.not_eq_false] at passes
      exact passes.2

theorem CallsInv.placeCall (inv : CallsInv start state) (checked : state.stage tid = .checked call) :
    CallsInv start (placeCall state tid call) := by
  have space : ummSpaceLeft state.brkLen state.mmapLen call.need = true := by
    have fits := inv.fits tid
    rw [checked] at fits
    exact fits
  have placed : ∀ addr len,
      (call.isBrk = false → addr = ummNextPos state.mmapLen call.need ∧ len = call.need) →
      (call.isBrk = true → call.need < state.brkLen ∨
        len = call.need - state.brkLen ∧ state.brkLen ≤ call.need) →
      CallsInv start (state.setStage tid (.placed call addr len)) := by
    intro addr len forMap forBrk
    refine inv.move tid _ (fun other runs => ?_) ⟨space, forMap, forBrk⟩
    rw [checked]
    exact runs
  unfold RdmaPaging.placeCall
  split
  · rename_i newBrk
    split
    · rename_i same
      have left := inv.leave tid
      refine { left with brkGiven := ?_ }
      rw [same]
      rfl
    · split
      · rename_i smaller
        exact placed _ _ (by simp [MemCall.isBrk]) fun _ => Or.inl smaller
      · rename_i larger
        exact placed _ _ (by simp [MemCall.isBrk]) fun _ => Or.inr ⟨rfl, BitVec.not_lt.mp larger⟩
  · rename_i notBrk
    refine placed _ _ (fun _ => ⟨rfl, rfl⟩) fun isBrk => ?_
    cases call with
    | brk newBrk => exact absurd rfl (notBrk newBrk)
    | _ => simp [MemCall.isBrk] at isBrk

theorem CallsInv.hostMap {addr : VirtAddr} {len : Size} (inv : CallsInv start state)
    (placed : state.stage tid = .placed call addr len) (fits : hostFits addr len = true) :
    CallsInv start (state.setStage tid (.mapped call addr)) := by
  have stage := inv.fits tid
  rw [placed] at stage
  obtain ⟨space, forMap, forBrk⟩ := stage
  have bound := hostFits_bound fits
  refine inv.move tid _ (fun other runs => ?_) ⟨space, fun isMap => ?_, fun isBrk => ?_⟩
  · rw [placed]
    exact runs
  · obtain ⟨position, isLen⟩ := forMap isMap
    exact ⟨position, isLen ▸ bound⟩
  · rcases forBrk isBrk with smaller | ⟨isLen, larger⟩
    · rw [BitVec.lt_def] at smaller
      omega
    · rw [BitVec.le_def] at larger
      rw [isLen, BitVec.toNat_sub] at bound
      have wide := call.need.isLt
      omega

theorem CallsInv.storeBrk {addr : VirtAddr} (inv : CallsInv start state)
    (mapped : state.stage tid = .mapped call addr) (isBrk : call.isBrk = true) :
    CallsInv start { state.leave tid with brkLen := call.need, brkGiven := call.need.toNat } := by
  have stage := inv.fits tid
  rw [mapped] at stage
  obtain ⟨space, _, forBrk⟩ := stage
  rw [ummSpaceLeft_iff] at space
  have bound := forBrk isBrk
  have room := inv.room
  have aligned : call.need.toNat % 4096 = 0 := by
    cases call with
    | brk newBrk =>
        rw [MemCall.need, pgRound_toNat]
        omega
    | _ => simp [MemCall.isBrk] at isBrk
  have runs : (state.stage tid).running = some call := by
    rw [mapped]
    rfl
  have left := inv.leave tid
  refine { left with brkAligned := aligned, room := ?_, brkGiven := rfl, fits := fun other => ?_ }
  · show call.need.toNat + state.mmapLen.toNat ≤ _
    omega
  · exact StageFits.of_quiet (inv.quiet runs other) _ _

theorem CallsInv.storeMap {addr : VirtAddr} {old : Size} (inv : CallsInv start state)
    (loaded : state.stage tid = .loaded call addr old) :
    CallsInv start { state.leave tid with
      mmapLen := old + pgRound call.need
      given := (addr.toNat, (pgRound call.need).toNat) :: state.given } := by
  have stage := inv.fits tid
  rw [loaded] at stage
  obtain ⟨space, position, bound, rfl⟩ := stage
  rw [ummSpaceLeft_iff] at space
  obtain ⟨covers, close, aligned⟩ := pgRound_bounds bound
  have room := inv.room
  have brkAligned := inv.brkAligned
  have mmapAligned := inv.mmapAligned
  have fits : state.brkLen.toNat + state.mmapLen.toNat + (pgRound call.need).toNat ≤
      0x400000000 := by omega
  have sum : (state.mmapLen + pgRound call.need).toNat =
      state.mmapLen.toNat + (pgRound call.need).toNat := by
    rw [BitVec.toNat_add]
    omega
  have address : addr.toNat = 0x700000000 - state.mmapLen.toNat - (pgRound call.need).toNat := by
    rw [position, ummNextPos_toNat (by omega)]
  have runs : (state.stage tid).running = some call := by
    rw [loaded]
    rfl
  have left := inv.leave tid
  refine { left with
    mmapAligned := ?_, room := ?_, inside := ?_, apart := ?_, total := ?_, fits := fun other => ?_ }
  · show (state.mmapLen + pgRound call.need).toNat % 4096 = 0
    omega
  · show state.brkLen.toNat + (state.mmapLen + pgRound call.need).toNat ≤ _
    omega
  · intro range member
    show 0x700000000 - (state.mmapLen + pgRound call.need).toNat ≤ range.1 ∧ _
    rcases List.mem_cons.mp member with isNew | earlier
    · subst isNew
      dsimp only
      omega
    · have inside := inv.inside range earlier
      omega
  · refine List.Pairwise.cons (fun range earlier => ?_) inv.apart
    have inside := inv.inside range earlier
    left
    dsimp only
    omega
  · show (state.mmapLen + pgRound call.need).toNat = _
    have total := inv.total
    rw [List.map_cons, List.sum_cons]
    dsimp only
    omega
  · exact StageFits.of_quiet (inv.quiet runs other) _ _

theorem CallsInv.step {action : MemAction} (inv : CallsInv start state)
    (oneByOne : callsOneByOne state action) (stepped : memStep state action = some next) :
    CallsInv start next := by
  cases action with
  | call tid call =>
      simp only [memStep] at stepped
      split at stepped
      · obtain rfl := Option.some.inj stepped
        exact inv.move tid _ (by simp [CallStage.running]) trivial
      · simp at stepped
  | enter tid =>
      simp only [memStep] at stepped
      split at stepped
      · rename_i call called
        have others := oneByOne call called
        split at stepped
        · rename_i needLock
          simp only [Option.ite_none_right_eq_some, Option.some.injEq] at stepped
          obtain ⟨free, rfl⟩ := stepped
          refine inv.enter called (fun other running runs => ?_) _ fun _ => rfl
          have held := inv.locked other running runs (others other running runs).2
          rw [free] at held
          simp at held
        · rename_i lockless
          obtain rfl := Option.some.inj stepped
          refine inv.enter called (fun other running runs => ?_) state.syscallMtx fun needLock => ?_
          · exact lockless (others other running runs).1
          · exact absurd needLock lockless
      · simp at stepped
  | check tid =>
      simp only [memStep] at stepped
      split at stepped
      · rename_i call entered
        obtain rfl := Option.some.inj stepped
        exact inv.checkSpace entered
      · simp at stepped
  | place tid =>
      simp only [memStep] at stepped
      split at stepped
      · rename_i call checked
        obtain rfl := Option.some.inj stepped
        exact inv.placeCall checked
      · simp at stepped
  | hostMap tid willing =>
      simp only [memStep] at stepped
      split at stepped
      · rename_i call addr len placed
        split at stepped
        · rename_i accepted
          obtain rfl := Option.some.inj stepped
          simp only [Bool.and_eq_true] at accepted
          exact inv.hostMap placed accepted.2
        · obtain rfl := Option.some.inj stepped
          exact inv.leave tid
      · simp at stepped
  | load tid =>
      simp only [memStep] at stepped
      split at stepped
      · rename_i call addr mapped
        simp only [Option.ite_none_left_eq_some, Option.some.injEq] at stepped
        obtain ⟨isMap, rfl⟩ := stepped
        have stage := inv.fits tid
        rw [mapped] at stage
        obtain ⟨position, bound⟩ := stage.2.1 (by simpa using isMap)
        refine inv.move tid _ (fun other runs => ?_) ⟨stage.1, position, bound, rfl⟩
        rw [mapped]
        exact runs
      · simp at stepped
  | store tid =>
      simp only [memStep] at stepped
      split at stepped
      · rename_i call addr mapped
        simp only [Option.ite_none_right_eq_some, Option.some.injEq] at stepped
        obtain ⟨isBrk, rfl⟩ := stepped
        exact inv.storeBrk mapped isBrk
      · rename_i call addr old loaded
        obtain rfl := Option.some.inj stepped
        exact inv.storeMap loaded
      · simp at stepped

/-- Calls that run one by one, or under the lock, are given separate ranges. -/
theorem memory_calls_apart {final : MemCalls} (ready : CallsStart start)
    (reached : Machine.Reaches memStep callsOneByOne start final) : CallsApart start final := by
  refine (reached.invariant (CallsInv start) ready.inv ?_).callsApart
  intro state action next inv oneByOne stepped
  exact inv.step oneByOne stepped

/-- The library before its first call. -/
def bootCalls : MemCalls where
  brkLen := 0
  mmapLen := 0
  syscallMtx := none
  stage := fun _ => .idle
  given := []
  brkGiven := 0

theorem bootCalls_start : CallsStart bootCalls :=
  ⟨fun _ => rfl, rfl, rfl, rfl, by decide, rfl, rfl⟩

theorem memory_calls_apart_mmap :
    ∃ final, Machine.Reaches memStep callsOneByOne bootCalls final ∧
      final.given = [(0x6fffff000, 4096)] ∧ CallsApart bootCalls final := by
  have called : Machine.Reaches memStep callsOneByOne bootCalls
      (bootCalls.setStage 0 (.called (.mmap 0x1000#64))) :=
    .tail .refl (show callsOneByOne bootCalls (.call 0 (.mmap 0x1000#64)) from trivial) rfl
  have alone : callsOneByOne (bootCalls.setStage 0 (.called (.mmap 0x1000#64))) (.enter 0) := by
    intro call _ other running runs
    by_cases isTid : other = 0
    · simp [MemCalls.setStage, isTid, CallStage.running] at runs
    · simp [MemCalls.setStage, isTid, bootCalls, CallStage.running] at runs
  have entered := Machine.Reaches.tail called alone rfl
  have checked := Machine.Reaches.tail entered (show callsOneByOne _ (.check 0) from trivial) rfl
  have placed := Machine.Reaches.tail checked (show callsOneByOne _ (.place 0) from trivial) rfl
  have mapped := Machine.Reaches.tail placed (show callsOneByOne _ (.hostMap 0 true) from trivial) rfl
  have loaded := Machine.Reaches.tail mapped (show callsOneByOne _ (.load 0) from trivial) rfl
  have stored := Machine.Reaches.tail loaded (show callsOneByOne _ (.store 0) from trivial) rfl
  exact ⟨_, stored, rfl, memory_calls_apart bootCalls_start stored⟩

/-- Two unlocked calls are given the same range. -/
theorem concurrent_mremaps_overlap :
    ∃ final, Machine.Reaches memStep (fun _ _ => True) bootCalls final ∧
      final.given = [(0x6fffff000, 4096), (0x6fffff000, 4096)] ∧ ¬ CallsApart bootCalls final := by
  refine ⟨_, Machine.reaches_of_checkedRun (fun _ _ => true)
    [.call 0 (.mremap 4096), .call 1 (.mremap 4096), .enter 0, .enter 1, .check 0, .check 1,
      .place 0, .place 1, .hostMap 0 true, .hostMap 1 true, .load 0, .store 0, .load 1, .store 1]
    (fun _ _ _ => trivial) rfl, rfl, ?_⟩
  intro apart
  have ranges := apart.ranges
  rw [List.pairwise_cons] at ranges
  have overlap := ranges.1 _ (List.mem_cons_self ..)
  rcases overlap with before | after
  · exact absurd before (by decide)
  · exact absurd after (by decide)

end RdmaPaging
