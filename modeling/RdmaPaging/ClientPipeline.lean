import Mathlib.Data.List.Basic
import RdmaPaging.ClientCore

/-!
How each party moves requests through the pipeline of the connection. The NIC and
`ibv_poll_cq` only advance requests; posting appends one and the poller's
`on_completion` takes the oldest one out.
-/

namespace RdmaPaging

variable {size : Nat}

@[simp] theorem completion_send : WrOpcode.completion .send = .send := rfl

@[simp] theorem completion_rdmaRead : WrOpcode.completion .rdmaRead = .rdmaRead := rfl

@[simp] theorem completion_rdmaWrite : WrOpcode.completion .rdmaWrite = .rdmaWrite := rfl

theorem fetch_opcode (wr : SendWr size) (staging : Buf size) :
    (wr.fetch staging).opcode = wr.opcode := by
  cases opcode : wr.opcode <;> simp [SendWr.fetch, opcode]

theorem fetch_remoteAddr (wr : SendWr size) (staging : Buf size) :
    (wr.fetch staging).remoteAddr = wr.remoteAddr := by
  cases opcode : wr.opcode <;> simp [SendWr.fetch, opcode]

theorem fetch_rkey (wr : SendWr size) (staging : Buf size) :
    (wr.fetch staging).rkey = wr.rkey := by
  cases opcode : wr.opcode <;> simp [SendWr.fetch, opcode]

theorem fetch_effect (wr : SendWr size) (staging : Buf size) (remote : Nat → UInt8) :
    (wr.fetch staging).effect staging remote = wr.effect staging remote := by
  cases opcode : wr.opcode <;> simp [SendWr.fetch, SendWr.effect, opcode]

theorem map_fetchAt {α : Type} (view : SendWr size → α) (staging : Buf size)
    (kept : ∀ wr : SendWr size, view (wr.fetch staging) = view wr) (index : Nat)
    (queue : List (SendWr size)) :
    (fetchAt staging index queue).map view = queue.map view := by
  induction queue generalizing index with
  | nil => simp [fetchAt]
  | cons wr rest ih =>
      cases index with
      | zero => simp [fetchAt, kept]
      | succ index => simp [fetchAt, ih]

theorem executeHead_pipeline (client : Client size) (wr : SendWr size)
    (rest : List (SendWr size)) (queue : client.sendQueue = wr :: rest) :
    pipeline (executeHead client wr rest) = pipeline client := by
  cases opcode : wr.opcode <;>
    simp only [executeHead, opcode] <;>
    try split
  all_goals simp [pipeline, queue, opcode]

theorem nicFetch_pipeline (client : Client size) (index : Nat) :
    pipeline { client with
      sendQueue := fetchAt client.conn.rdmaRemoteRegion index client.sendQueue } =
      pipeline client := by
  simp only [pipeline]
  rw [map_fetchAt (fun wr : SendWr size => wr.opcode.completion)]
  intro wr
  rw [fetch_opcode]

theorem nicComplete_pipeline (client : Client size) (wc : IbvWc) (rest : List IbvWc)
    (completed : Nat) (executed : client.executed = wc :: rest) :
    pipeline { client with
      executed := rest, cq := client.cq ++ [wc], readsCompleted := completed } =
      pipeline client := by
  simp [pipeline, executed]

theorem pollCq_pipeline (client : Client size) (wc : IbvWc) (rest : List IbvWc)
    (empty : client.polled = none) (queue : client.cq = wc :: rest) :
    pipeline { client with polled := some wc, cq := rest } = pipeline client := by
  simp [pipeline, empty, queue]

theorem postSend_pipeline (client : Client size) (wr : SendWr size) :
    pipeline (postSend client wr) = pipeline client ++ [wr.opcode.completion] := by
  simp [pipeline, postSend]

theorem polled_pipeline (client : Client size) (wc : IbvWc) (polled : client.polled = some wc) :
    pipeline client = wc.opcode :: pipeline { client with polled := none } := by
  simp [pipeline, polled]

/-! The fields that `on_completion` leaves alone. -/

/-- Two states agree on everything but what `on_completion` may assign. -/
structure SameButCompletion (before after : Client size) : Prop where
  connContext : after.connContext = before.connContext
  eventThread : after.eventThread = before.eventThread
  freed : after.freed = before.freed
  initReturned : after.initReturned = before.initReturned
  doneCalled : after.doneCalled = before.doneCalled
  threads : after.threads = before.threads
  sendQueue : after.sendQueue = before.sendQueue
  executed : after.executed = before.executed
  cq : after.cq = before.cq
  serverMrSent : after.serverMrSent = before.serverMrSent
  inbound : after.inbound = before.inbound
  serverMr : after.serverMr = before.serverMr
  remote : after.remote = before.remote
  posted : after.posted = before.posted
  readsPosted : after.readsPosted = before.readsPosted
  readsCompleted : after.readsCompleted = before.readsCompleted
  returned : after.returned = before.returned
  usedFreed : after.usedFreed = before.usedFreed
  connected : after.conn.connected = before.conn.connected
  rdmaLocalRegion : after.conn.rdmaLocalRegion = before.conn.rdmaLocalRegion
  rdmaRemoteRegion : after.conn.rdmaRemoteRegion = before.conn.rdmaRemoteRegion

theorem onRecv_same (client : Client size) : SameButCompletion client (onRecv client) := by
  unfold onRecv postReceives
  dsimp only
  split
  · split <;> constructor <;> rfl
  · split <;> constructor <;> rfl

theorem onSend_same (opcode : WcOpcode) (client : Client size) :
    SameButCompletion client (onSend opcode client) := by
  unfold onSend
  split
  · split <;> constructor <;> rfl
  · constructor <;> rfl

theorem finishCompletion_same (before client : Client size)
    (same : SameButCompletion before client) :
    SameButCompletion before (finishCompletion client) := by
  unfold finishCompletion
  split
  · exact ⟨same.1, same.2, same.3, same.4, same.5, same.6, same.7, same.8, same.9, same.10,
      same.11, same.12, same.13, same.14, same.15, same.16, same.17, same.18, same.19, same.20,
      same.21⟩
  · exact same

theorem onCompletion_same {wc : IbvWc} {client done : Client size}
    (handled : onCompletion wc client = some done) : SameButCompletion client done := by
  unfold onCompletion at handled
  split at handled
  · simp at handled
  · simp only [Option.some.injEq] at handled
    rw [← handled]
    apply finishCompletion_same
    split
    · exact onRecv_same client
    · exact onSend_same wc.opcode client

end RdmaPaging
