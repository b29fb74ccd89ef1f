import RdmaPaging.ClientCore
import RdmaPaging.Machine

/-!
The loop of `poll_cq` and the completion channel. A completion that arrives while the queue
is armed raises one event and disarms it. The loop takes an event, acknowledges it, arms the
queue again and drains it, and completions may arrive between any two of these steps.
-/

namespace RdmaPaging

/-- Where the loop stands: the call it makes next. -/
inductive PollPc
  | getCqEvent
  | ackCqEvents
  | reqNotifyCq
  | pollCq
  | onCompletion (wc : IbvWc)
  deriving DecidableEq

/-- The completion queue (oldest entry first), its channel and the loop. `arrived` and
`passed` are the completions that have come so far and those given to `on_completion`. -/
structure PollState where
  armed : Bool
  events : Nat
  cq : List IbvWc
  pc : PollPc
  arrived : List IbvWc
  passed : List IbvWc
  deriving DecidableEq

inductive PollAction
  | arrive (wc : IbvWc)
  | getCqEvent
  | ackCqEvents
  | reqNotifyCq
  | pollCq
  | onCompletion

/-- The queue that `build_context` makes and arms, with the poller just started. -/
def buildContext : PollState where
  armed := true
  events := 0
  cq := []
  pc := .getCqEvent
  arrived := []
  passed := []

def arrive (wc : IbvWc) (state : PollState) : PollState :=
  { state with
    cq := state.cq ++ [wc]
    arrived := state.arrived ++ [wc]
    events := if state.armed then state.events + 1 else state.events
    armed := false }

@[grind =] def pollStep (state : PollState) : PollAction → Option PollState
  | .arrive wc => some (arrive wc state)
  | .getCqEvent =>
      -- without an event the thread stays blocked in the call
      if state.pc = .getCqEvent ∧ 0 < state.events then
        some { state with pc := .ackCqEvents, events := state.events - 1 }
      else none
  | .ackCqEvents =>
      if state.pc = .ackCqEvents then some { state with pc := .reqNotifyCq } else none
  | .reqNotifyCq =>
      if state.pc = .reqNotifyCq then some { state with pc := .pollCq, armed := true } else none
  | .pollCq =>
      match state.pc, state.cq with
      | .pollCq, [] => some { state with pc := .getCqEvent }
      | .pollCq, wc :: rest => some { state with pc := .onCompletion wc, cq := rest }
      | _, _ => none
  | .onCompletion =>
      match state.pc with
      | .onCompletion wc => some { state with pc := .pollCq, passed := state.passed ++ [wc] }
      | _ => none

/-- The completion that the loop has taken from the queue and not yet passed on. -/
@[grind =] def PollPc.polled : PollPc → Option IbvWc
  | .onCompletion wc => some wc
  | _ => none

def PollPc.draining : PollPc → Bool
  | .pollCq | .onCompletion _ => true
  | _ => false

/-- The loop waits in `ibv_get_cq_event` and no event is pending. -/
def PollState.blocked (state : PollState) : Prop := state.pc = .getCqEvent ∧ state.events = 0

structure PollInv (state : PollState) : Prop where
  order : state.passed ++ state.pc.polled.toList ++ state.cq = state.arrived
  -- a disarmed queue has told the loop, or the loop is about to arm it
  heard : state.pc = .getCqEvent ∨ state.pc.draining = true →
    state.armed = true ∨ 0 < state.events
  -- while the loop waits, nothing has come since the queue was armed
  empty : state.pc = .getCqEvent → state.armed = true → state.cq = []

theorem buildContext_inv : PollInv buildContext := by
  refine ⟨rfl, fun _ => Or.inl rfl, fun _ _ => rfl⟩

theorem PollInv.arrive {state : PollState} (inv : PollInv state) (wc : IbvWc) :
    PollInv (arrive wc state) := by
  constructor
  · simp only [RdmaPaging.arrive, ← inv.order, List.append_assoc]
  · intro waiting
    right
    simp only [RdmaPaging.arrive]
    by_cases armed : state.armed = true
    · rw [if_pos armed]
      exact Nat.succ_pos _
    · rw [if_neg armed]
      exact (inv.heard waiting).resolve_left armed
  · intro _ armed
    exact absurd armed (by simp [RdmaPaging.arrive])

theorem PollInv.pollCq {state next : PollState} (inv : PollInv state)
    (stepped : pollStep state .pollCq = some next) : PollInv next := by
  simp only [pollStep] at stepped
  split at stepped
  · rename_i atPoll empty
    obtain rfl := Option.some.inj stepped
    have draining : state.pc.draining = true := by rw [atPoll, PollPc.draining]
    have order := inv.order
    rw [atPoll] at order
    exact ⟨order, fun _ => inv.heard (Or.inr draining), fun _ _ => empty⟩
  · rename_i wc rest atPoll nonempty
    obtain rfl := Option.some.inj stepped
    have draining : state.pc.draining = true := by rw [atPoll, PollPc.draining]
    refine ⟨?_, fun _ => inv.heard (Or.inr draining), fun waiting => by simp at waiting⟩
    have order := inv.order
    rw [atPoll, nonempty] at order
    simpa [PollPc.polled] using order
  · simp at stepped

theorem PollInv.step {state next : PollState} {action : PollAction} (inv : PollInv state)
    (stepped : pollStep state action = some next) : PollInv next := by
  cases action with
  | arrive wc =>
      obtain rfl := Option.some.inj stepped
      exact inv.arrive wc
  | getCqEvent =>
      simp only [pollStep, Option.ite_none_right_eq_some, Option.some.injEq] at stepped
      obtain ⟨⟨waiting, _⟩, rfl⟩ := stepped
      have order := inv.order
      rw [waiting] at order
      exact ⟨order, by simp [PollPc.draining], by simp⟩
  | ackCqEvents =>
      simp only [pollStep, Option.ite_none_right_eq_some, Option.some.injEq] at stepped
      obtain ⟨acks, rfl⟩ := stepped
      have order := inv.order
      rw [acks] at order
      exact ⟨order, by simp [PollPc.draining], by simp⟩
  | reqNotifyCq =>
      simp only [pollStep, Option.ite_none_right_eq_some, Option.some.injEq] at stepped
      obtain ⟨arms, rfl⟩ := stepped
      have order := inv.order
      rw [arms] at order
      exact ⟨order, fun _ => Or.inl rfl, by simp⟩
  | pollCq => exact inv.pollCq stepped
  | onCompletion =>
      simp only [pollStep] at stepped
      split at stepped
      · rename_i wc handling
        obtain rfl := Option.some.inj stepped
        have draining : state.pc.draining = true := by rw [handling, PollPc.draining]
        refine ⟨?_, fun _ => inv.heard (Or.inr draining), by simp⟩
        have order := inv.order
        rw [handling] at order
        simpa [PollPc.polled] using order
      · simp at stepped

/-- In every run of the loop the completions are passed on once each and in the order of
their arrival, and the loop blocks only when all of them have been. -/
theorem completions_not_lost {state : PollState}
    (reached : Machine.Reaches pollStep (fun _ _ => True) buildContext state) :
    state.passed <+: state.arrived ∧
      (state.blocked → state.cq = [] ∧ state.passed = state.arrived) := by
  have inv : PollInv state :=
    reached.invariant PollInv buildContext_inv fun _ _ _ inv _ stepped => inv.step stepped
  have order := inv.order
  constructor
  · rw [List.append_assoc] at order
    exact ⟨_, order⟩
  · rintro ⟨waiting, quiet⟩
    have armed : state.armed = true := (inv.heard (Or.inl waiting)).resolve_right (by omega)
    have empty := inv.empty waiting armed
    refine ⟨empty, ?_⟩
    rw [waiting, empty] at order
    simpa [PollPc.polled] using order

/-- Two completions, the second one arriving after the queue is armed again. -/
theorem completions_not_lost_late_arrival :
    ∃ state, Machine.Reaches pollStep (fun _ _ => True) buildContext state ∧
      state.blocked ∧ state.passed = [⟨.rdmaRead, .success⟩, ⟨.rdmaWrite, .success⟩] ∧
      state.passed = state.arrived := by
  have ran : Machine.checkedRun pollStep (fun _ _ => true) buildContext
      [.arrive ⟨.rdmaRead, .success⟩, .getCqEvent, .ackCqEvents, .reqNotifyCq,
        .arrive ⟨.rdmaWrite, .success⟩, .pollCq, .onCompletion, .pollCq, .onCompletion, .pollCq,
        .getCqEvent, .ackCqEvents, .reqNotifyCq, .pollCq] =
      some {
        armed := true, events := 0, cq := [], pc := .getCqEvent
        arrived := [⟨.rdmaRead, .success⟩, ⟨.rdmaWrite, .success⟩]
        passed := [⟨.rdmaRead, .success⟩, ⟨.rdmaWrite, .success⟩] } := by decide
  have reached := Machine.reaches_of_checkedRun (fun _ _ => true) _ (fun _ _ _ => trivial) ran
  exact ⟨_, reached, ⟨rfl, rfl⟩, rfl, ((completions_not_lost reached).2 ⟨rfl, rfl⟩).2⟩

/-- What the loop does to the queue is what the poller of the client does. -/
theorem pollStep_poller {size : Nat} {client : Client size} {state next : PollState}
    (sameQueue : client.cq = state.cq) (samePolled : client.polled = state.pc.polled)
    (stepped : pollStep state .pollCq = some next) :
    (state.cq = [] ∧ next.cq = [] ∧ next.pc.polled = client.polled) ∨
      stepPoller client .pollCq = some { client with cq := next.cq, polled := next.pc.polled } := by
  simp only [pollStep] at stepped
  split at stepped
  · rename_i atPoll empty
    obtain rfl := Option.some.inj stepped
    left
    rw [samePolled, atPoll]
    exact ⟨empty, empty, rfl⟩
  · rename_i wc rest atPoll nonempty
    obtain rfl := Option.some.inj stepped
    right
    rw [atPoll] at samePolled
    simp only [stepPoller, sameQueue, nonempty, samePolled, PollPc.polled]
  · simp at stepped

end RdmaPaging
