import RdmaPaging.Machine
import RdmaPaging.ClientPipeline

/-!
The start of a connection, up to the return of `rdma_init`. The server's MR releases
the caller on the poller's thread, while `connected` and `conn_context` are set by the
thread that runs `create_rdma`.
-/

namespace RdmaPaging

variable {size : Nat}

/-- The steps before the caller of `rdma_init` can use the connection. -/
def startupGuard (_ : Client size) : Action size → Prop
  | .initReturn => True
  | .addrResolved | .routeResolved | .onConnect | .setContext => True
  | .pollCq | .handleWc | .nicDeliver => True
  | .serverAccept | .serverSendMr => True
  | _ => False

/-- What the caller of `rdma_init` may rely on once it has returned. -/
def UsableConnection (serverMr : IbvMr) (client : Client size) : Prop :=
  client.connContext = true ∧ client.conn.connected = true ∧
    client.conn.recvState = .rsMrRecv ∧ client.conn.peerMr = serverMr ∧ client.recvPosted = 1

/-- How far the server's MR message has come. -/
inductive MrStage (serverMr : IbvMr) (client : Client size) : Prop
  | unbuilt : client.eventThread = .resolvingAddr → client.serverMrSent = false →
      client.inbound = [] → client.recvPosted = 0 → client.cq = [] → client.polled = none →
      client.initWait = 0 → MrStage serverMr client
  | awaited : client.eventThread ≠ .resolvingAddr → client.conn.recvState = .rsInit →
      client.inbound = (if client.serverMrSent then [⟨.msgMr, serverMr⟩] else []) →
      client.recvPosted = 1 → client.cq = [] → client.polled = none →
      client.initWait = 0 → MrStage serverMr client
  | delivered : client.eventThread ≠ .resolvingAddr → client.conn.recvState = .rsInit →
      client.serverMrSent = true → client.inbound = [] → client.recvPosted = 0 →
      client.conn.recvMsg = ⟨.msgMr, serverMr⟩ →
      client.polled.toList ++ client.cq = [⟨.recv, .success⟩] →
      client.initWait = 0 → MrStage serverMr client
  | handled : client.eventThread ≠ .resolvingAddr → client.conn.recvState = .rsMrRecv →
      client.conn.peerMr = serverMr → client.serverMrSent = true → client.inbound = [] →
      client.recvPosted = 1 → client.cq = [] → client.polled = none → MrStage serverMr client

structure StartupInv (serverMr : IbvMr) (client : Client size) : Prop where
  stage : MrStage serverMr client
  server : client.serverMr = serverMr
  live : client.freed = false
  sendState : client.eventThread ≠ .resolvingAddr → client.conn.sendState = .ssInit
  context : client.connContext = decide (client.eventThread = .running)
  connected : client.eventThread = .established ∨ client.eventThread = .running →
    client.conn.connected = true
  sentBy : client.serverMrSent = true → client.serverUp = true
  upBy : client.serverUp = true →
    client.eventThread ≠ .resolvingAddr ∧ client.eventThread ≠ .resolvingRoute

theorem rdmaInitStart_startupInv (conn : Connection size) (serverMr : IbvMr)
    (remote : Nat → UInt8) : StartupInv serverMr (rdmaInitStart conn serverMr remote) where
  stage := .unbuilt rfl rfl rfl rfl rfl rfl rfl
  server := rfl
  live := rfl
  sendState := by simp [rdmaInitStart]
  context := by simp [rdmaInitStart]
  connected := by simp [rdmaInitStart]
  sentBy := by simp [rdmaInitStart]
  upBy := by simp [rdmaInitStart]

/-- Once the connection is built, the event thread and the MR message do not meet. -/
theorem MrStage.eventThread {serverMr : IbvMr} {client : Client size} {now : EventThread}
    {connected context : Bool} (stage : MrStage serverMr client)
    (built : client.eventThread ≠ .resolvingAddr) (stays : now ≠ .resolvingAddr) :
    MrStage serverMr { client with
      eventThread := now
      connContext := context
      conn := { client.conn with connected := connected } } := by
  cases stage with
  | unbuilt early => exact absurd early built
  | awaited _ recvState inbound recvPosted cq polled initWait =>
      exact .awaited stays recvState inbound recvPosted cq polled initWait
  | delivered _ recvState sent inbound recvPosted message arrived initWait =>
      exact .delivered stays recvState sent inbound recvPosted message arrived initWait
  | handled _ recvState peerMr sent inbound recvPosted cq polled =>
      exact .handled stays recvState peerMr sent inbound recvPosted cq polled

theorem addrResolved_startupInv {serverMr : IbvMr} {client : Client size}
    (inv : StartupInv serverMr client) (resolving : client.eventThread = .resolvingAddr) :
    StartupInv serverMr { buildConnection client with eventThread := .resolvingRoute } := by
  have down : client.serverUp = false := by
    by_contra up
    exact (inv.upBy (by simpa using up)).1 resolving
  have unsent : client.serverMrSent = false := by
    by_contra sent
    exact absurd (inv.sentBy (by simpa using sent)) (by simp [down])
  refine ⟨?_, inv.server, inv.live, ?_, ?_, by simp, inv.sentBy, ?_⟩
  · cases inv.stage with
    | unbuilt _ _ inbound recvPosted cq polled initWait =>
        refine .awaited (by simp) rfl ?_ ?_ cq polled initWait
        · simp [buildConnection, postReceives, unsent, inbound]
        · simp [buildConnection, postReceives, recvPosted]
    | awaited built => exact absurd resolving built
    | delivered built => exact absurd resolving built
    | handled built => exact absurd resolving built
  · simp [buildConnection, postReceives]
  · simp [buildConnection, postReceives, inv.context, resolving]
  · simp [buildConnection, postReceives, down]

theorem stepEventThread_startupInv {serverMr : IbvMr} {client next : Client size}
    {action : Action size} (inv : StartupInv serverMr client)
    (allowed : startupGuard client action)
    (stepped : stepEventThread client action = some next) : StartupInv serverMr next := by
  cases action <;> simp only [stepEventThread, reduceCtorEq] at stepped
  case addrResolved =>
    split at stepped
    · rename_i resolving
      obtain rfl := Option.some.inj stepped
      exact addrResolved_startupInv inv resolving
    · simp at stepped
  case routeResolved =>
    split at stepped
    · rename_i resolving
      obtain rfl := Option.some.inj stepped
      have built : client.eventThread ≠ .resolvingAddr := by simp [resolving]
      refine ⟨inv.stage.eventThread built (by simp), inv.server, inv.live,
        fun _ => inv.sendState built, ?_, by simp, inv.sentBy, by simp⟩
      simp [inv.context, resolving]
    · simp at stepped
  case onConnect =>
    split at stepped
    · rename_i connecting
      obtain rfl := Option.some.inj stepped
      have built : client.eventThread ≠ .resolvingAddr := by simp [connecting.1]
      refine ⟨inv.stage.eventThread built (by simp), inv.server, inv.live,
        fun _ => inv.sendState built, ?_, by simp, inv.sentBy, by simp⟩
      simp [inv.context, connecting.1]
    · simp at stepped
  case setContext =>
    split at stepped
    · rename_i established
      obtain rfl := Option.some.inj stepped
      have built : client.eventThread ≠ .resolvingAddr := by simp [established]
      exact ⟨inv.stage.eventThread built (by simp), inv.server, inv.live,
        fun _ => inv.sendState built, by simp,
        fun _ => inv.connected (Or.inl established), inv.sentBy, by simp⟩
    · simp at stepped
  case onDisconnect => exact allowed.elim

theorem stepPoller_startupInv {serverMr : IbvMr} {client next : Client size}
    {action : Action size} (inv : StartupInv serverMr client)
    (stepped : stepPoller client action = some next) : StartupInv serverMr next := by
  cases action <;> simp only [stepPoller, reduceCtorEq] at stepped
  case pollCq =>
    split at stepped
    · rename_i wc rest polled cq
      obtain rfl := Option.some.inj stepped
      refine { inv with stage := ?_ }
      cases inv.stage with
      | unbuilt _ _ _ _ empty => simp [cq] at empty
      | awaited _ _ _ _ empty => simp [cq] at empty
      | delivered built recvState sent inbound recvPosted message arrived initWait =>
          refine .delivered built recvState sent inbound recvPosted message ?_ initWait
          simpa [polled, cq] using arrived
      | handled _ _ _ _ _ _ empty => simp [cq] at empty
    · simp at stepped
  case handleWc =>
    split at stepped
    · rename_i wc polled
      rw [if_neg (by simp [inv.live])] at stepped
      cases inv.stage with
      | unbuilt _ _ _ _ _ empty => simp [polled] at empty
      | awaited _ _ _ _ _ empty => simp [polled] at empty
      | delivered built recvState sent inbound recvPosted message arrived initWait =>
          have isRecv : wc = ⟨.recv, .success⟩ ∧ client.cq = [] := by simpa [polled] using arrived
          have sendState := inv.sendState built
          have received : onCompletion wc client = some { client with
              conn := { client.conn with peerMr := serverMr, recvState := .rsMrRecv }
              recvPosted := 1
              initWait := 1 } := by
            simp [isRecv.1, onCompletion, onRecv, recvState, message, postReceives, sendState,
              finishCompletion, recvPosted, initWait]
          rw [received] at stepped
          obtain rfl := Option.some.inj stepped
          exact { inv with stage := .handled built rfl rfl sent inbound rfl isRecv.2 rfl }
      | handled _ _ _ _ _ _ _ empty => simp [polled] at empty
    · simp at stepped

theorem nicDeliver_startupInv {serverMr : IbvMr} {client next : Client size}
    (inv : StartupInv serverMr client)
    (stepped : stepNic client .nicDeliver = some next) : StartupInv serverMr next := by
  simp only [stepNic] at stepped
  split at stepped
  · simp at stepped
  · rename_i armed
    split at stepped
    · simp at stepped
    · rename_i message rest waiting
      obtain rfl := Option.some.inj stepped
      refine { inv with stage := ?_ }
      cases inv.stage with
      | unbuilt _ _ empty => simp [waiting] at empty
      | awaited built recvState inbound recvPosted cq polled initWait =>
          rw [waiting] at inbound
          split at inbound
          · rename_i sent
            obtain ⟨isMr, last⟩ := List.cons.inj inbound
            exact .delivered built recvState sent last (by simp [recvPosted]) isMr
              (by simp [polled, cq]) initWait
          · simp at inbound
      | delivered _ _ _ empty => simp [waiting] at empty
      | handled _ _ _ _ empty => simp [waiting] at empty

theorem stepServer_startupInv {serverMr : IbvMr} {client next : Client size}
    {action : Action size} (inv : StartupInv serverMr client)
    (allowed : startupGuard client action)
    (stepped : stepServer client action = some next) : StartupInv serverMr next := by
  cases action <;> simp only [stepServer, reduceCtorEq] at stepped
  case serverAccept =>
    split at stepped
    · rename_i connecting
      obtain rfl := Option.some.inj stepped
      refine { inv with stage := ?_, sentBy := fun _ => rfl, upBy := fun _ => ?_ }
      · cases inv.stage with
        | unbuilt early => exact absurd (connecting.1.symm.trans early) (by simp)
        | awaited built recvState inbound recvPosted cq polled initWait =>
            exact .awaited built recvState inbound recvPosted cq polled initWait
        | delivered built recvState sent inbound recvPosted message arrived initWait =>
            exact .delivered built recvState sent inbound recvPosted message arrived initWait
        | handled built recvState peerMr sent inbound recvPosted cq polled =>
            exact .handled built recvState peerMr sent inbound recvPosted cq polled
      · simp [connecting.1]
    · simp at stepped
  case serverSendMr =>
    split at stepped
    · rename_i first
      obtain ⟨up, unsent⟩ := first
      obtain rfl := Option.some.inj stepped
      refine { inv with stage := ?_, sentBy := fun _ => up }
      cases inv.stage with
      | unbuilt early => exact absurd early (inv.upBy up).1
      | awaited built recvState inbound recvPosted cq polled initWait =>
          refine .awaited built recvState ?_ recvPosted cq polled initWait
          simp [inbound, unsent, inv.server]
      | delivered _ _ sent => exact absurd sent unsent
      | handled _ _ _ sent => exact absurd sent unsent
    · simp at stepped
  case serverSendDone => exact allowed.elim
  case serverDisconnect => exact allowed.elim

theorem initReturn_cases {client next : Client size}
    (stepped : step client .initReturn = some next) :
    0 < client.initWait ∧
      next = { client with initWait := client.initWait - 1, initReturned := true } := by
  simp only [step, Action.party, stepInit] at stepped
  split at stepped
  · rename_i released
    exact ⟨released.1, (Option.some.inj stepped).symm⟩
  · simp at stepped

/-- `init_wait` is posted only by the handler of the server's MR. -/
theorem MrStage.released {serverMr : IbvMr} {client : Client size}
    (stage : MrStage serverMr client) (posted : 0 < client.initWait) :
    client.eventThread ≠ .resolvingAddr ∧ client.conn.recvState = .rsMrRecv ∧
      client.conn.peerMr = serverMr ∧ client.serverMrSent = true ∧ client.inbound = [] ∧
      client.recvPosted = 1 ∧ client.cq = [] ∧ client.polled = none := by
  cases stage with
  | unbuilt _ _ _ _ _ _ initWait => simp [initWait] at posted
  | awaited _ _ _ _ _ _ initWait => simp [initWait] at posted
  | delivered _ _ _ _ _ _ _ initWait => simp [initWait] at posted
  | handled built recvState peerMr sent inbound recvPosted cq polled =>
      exact ⟨built, recvState, peerMr, sent, inbound, recvPosted, cq, polled⟩

theorem initReturn_startupInv {serverMr : IbvMr} {client next : Client size}
    (inv : StartupInv serverMr client)
    (stepped : step client .initReturn = some next) : StartupInv serverMr next := by
  obtain ⟨posted, rfl⟩ := initReturn_cases stepped
  obtain ⟨built, recvState, peerMr, sent, inbound, recvPosted, cq, polled⟩ :=
    inv.stage.released posted
  exact { inv with stage := .handled built recvState peerMr sent inbound recvPosted cq polled }

theorem step_startupInv {serverMr : IbvMr} {client next : Client size} {action : Action size}
    (inv : StartupInv serverMr client) (allowed : startupGuard client action)
    (stepped : step client action = some next) : StartupInv serverMr next := by
  cases action <;> try exact allowed.elim
  case initReturn => exact initReturn_startupInv inv stepped
  case addrResolved => exact stepEventThread_startupInv inv allowed stepped
  case routeResolved => exact stepEventThread_startupInv inv allowed stepped
  case onConnect => exact stepEventThread_startupInv inv allowed stepped
  case setContext => exact stepEventThread_startupInv inv allowed stepped
  case pollCq =>
    exact stepPoller_startupInv inv (show stepPoller client .pollCq = some next from stepped)
  case handleWc =>
    exact stepPoller_startupInv inv (show stepPoller client .handleWc = some next from stepped)
  case nicDeliver => exact nicDeliver_startupInv inv stepped
  case serverAccept => exact stepServer_startupInv inv allowed stepped
  case serverSendMr => exact stepServer_startupInv inv allowed stepped

theorem reaches_startupInv {conn : Connection size} {serverMr : IbvMr} {remote : Nat → UInt8}
    {client : Client size}
    (reached : Machine.Reaches step startupGuard (rdmaInitStart conn serverMr remote) client) :
    StartupInv serverMr client :=
  reached.invariant (StartupInv serverMr) (rdmaInitStart_startupInv conn serverMr remote)
    fun _ _ _ kept allowed stepped => step_startupInv kept allowed stepped

/-- `rdma_init` returns a usable connection exactly when the event thread has left
`on_connection` by then. -/
theorem init_returns_usable_iff (conn : Connection size) (serverMr : IbvMr)
    (remote : Nat → UInt8) {client next : Client size}
    (reached : Machine.Reaches step startupGuard (rdmaInitStart conn serverMr remote) client)
    (returned : step client .initReturn = some next) :
    UsableConnection serverMr next ↔ client.eventThread = .running := by
  have inv := reaches_startupInv reached
  obtain ⟨posted, rfl⟩ := initReturn_cases returned
  obtain ⟨_, recvState, peerMr, _, _, recvPosted, _, _⟩ := inv.stage.released posted
  constructor
  · intro usable
    have context : client.connContext = true := usable.1
    rw [inv.context] at context
    simpa using context
  · intro running
    refine ⟨?_, inv.connected (Or.inr running), recvState, peerMr, recvPosted⟩
    show client.connContext = true
    rw [inv.context]
    simp [running]

/-- Memory as `malloc` may return it for the connection of the runs below. -/
def freshConnection : Connection 1 where
  connected := false
  peerMr := ⟨0, 0, 0⟩
  recvMsg := ⟨.msgMr, ⟨0, 0, 0⟩⟩
  sendMsg := ⟨.msgMr, ⟨0, 0, 0⟩⟩
  rdmaLocalRegion := fun _ => 0
  rdmaRemoteRegion := fun _ => 0
  sendState := .ssInit
  recvState := .rsInit

theorem init_returns_usable_iff_in_order : ∃ client next : Client 1,
    Machine.Reaches step startupGuard (rdmaInitStart freshConnection ⟨4096, 2, 7⟩ fun _ => 0)
      client ∧
    step client .initReturn = some next ∧ client.eventThread = .running ∧
    (UsableConnection ⟨4096, 2, 7⟩ next ↔ client.eventThread = .running) := by
  have begun : Machine.Reaches step startupGuard
      (rdmaInitStart freshConnection ⟨4096, 2, 7⟩ fun _ => 0) _ := Machine.Reaches.refl
  have reached := begun
    |>.tail (show startupGuard _ .addrResolved from trivial) rfl
    |>.tail (show startupGuard _ .routeResolved from trivial) rfl
    |>.tail (show startupGuard _ .serverAccept from trivial) rfl
    |>.tail (show startupGuard _ .onConnect from trivial) rfl
    |>.tail (show startupGuard _ .setContext from trivial) rfl
    |>.tail (show startupGuard _ .serverSendMr from trivial) rfl
    |>.tail (show startupGuard _ .nicDeliver from trivial) rfl
    |>.tail (show startupGuard _ .pollCq from trivial) rfl
    |>.tail (show startupGuard _ .handleWc from trivial) rfl
  exact ⟨_, _, reached, rfl, rfl, init_returns_usable_iff _ _ _ reached rfl⟩

/-- The server's MR is handled before the event thread sees ESTABLISHED: the caller is
released with `conn_context` still null. -/
theorem init_returns_early : ∃ client next : Client 1,
    Machine.Reaches step startupGuard (rdmaInitStart freshConnection ⟨4096, 2, 7⟩ fun _ => 0)
      client ∧
    step client .initReturn = some next ∧ ¬ UsableConnection ⟨4096, 2, 7⟩ next := by
  have begun : Machine.Reaches step startupGuard
      (rdmaInitStart freshConnection ⟨4096, 2, 7⟩ fun _ => 0) _ := Machine.Reaches.refl
  have reached := begun
    |>.tail (show startupGuard _ .addrResolved from trivial) rfl
    |>.tail (show startupGuard _ .routeResolved from trivial) rfl
    |>.tail (show startupGuard _ .serverAccept from trivial) rfl
    |>.tail (show startupGuard _ .serverSendMr from trivial) rfl
    |>.tail (show startupGuard _ .nicDeliver from trivial) rfl
    |>.tail (show startupGuard _ .pollCq from trivial) rfl
    |>.tail (show startupGuard _ .handleWc from trivial) rfl
  refine ⟨_, _, reached, rfl, ?_⟩
  rintro ⟨context, _⟩
  exact absurd context (by decide)

end RdmaPaging
