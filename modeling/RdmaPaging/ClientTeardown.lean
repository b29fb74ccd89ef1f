import RdmaPaging.ClientStartup

/-!
Teardown of a connection. `on_disconnect` frees the connection on the event thread
without looking at the completion queue, so what the poller has handled by then decides
whether a completion or a posted receive is left behind.
-/

namespace RdmaPaging

variable {size : Nat}

/-- A run of reads and writes that `rdma_done` ends. -/
def doneLast (client : Client size) : Action size → Prop
  | .writeWait _ _ | .readPost _ _ => client.doneCalled = false
  | .donePost _ => client.doneCalled = false ∧ ∀ tid, client.threads tid = .idle
  | _ => True

/-- DISCONNECTED is handled only after the completion of the client's DONE and the
receive completions of the server's MR and DONE. -/
def drainedFirst (client : Client size) (action : Action size) : Prop :=
  action = .onDisconnect → .send ∈ client.handled ∧ client.handled.count .recv = 2

def drainedRun (client : Client size) (action : Action size) : Prop :=
  doneLast client action ∧ drainedFirst client action

/-- No completion was handled for the freed connection, and its queue pair was
destroyed with nothing posted. -/
def CleanTeardown (client : Client size) : Prop :=
  client.usedFreed = false ∧
    (client.freed = true → client.sendQueue = [] ∧ client.executed = [] ∧ client.recvPosted = 0)

/-- Every completion of the connection, handled or still to come. -/
@[grind =] def history (client : Client size) : List WcOpcode := client.handled ++ pipeline client

@[grind =] def sends (client : Client size) : List WcOpcode := (history client).filter (· ≠ .recv)

/-- Every receive posted on the connection. -/
@[grind =] def receives (client : Client size) : Nat := (history client).count .recv + client.recvPosted

structure TeardownInv (client : Client size) : Prop where
  before : client.doneCalled = false → .send ∉ sends client
  last : client.doneCalled = true →
    ∃ earlier, sends client = earlier ++ [.send] ∧ .send ∉ earlier
  finished : client.doneCalled = true → ∀ tid,
    (client.threads tid).writing = false ∧ (client.threads tid).reading = false
  received : receives client = if client.eventThread = .resolvingAddr then 0
    else if client.conn.recvState = .rsInit then 1 else 2
  gone : client.freed = true →
    pipeline client = [] ∧ client.recvPosted = 0 ∧ client.eventThread = .exited
  unused : client.usedFreed = false

theorem TeardownInv.clean {client : Client size} (inv : TeardownInv client) :
    CleanTeardown client := by
  refine ⟨inv.unused, fun freed => ?_⟩
  obtain ⟨empty, recvPosted, _⟩ := inv.gone freed
  simp only [pipeline, List.append_eq_nil_iff, List.map_eq_nil_iff] at empty
  exact ⟨empty.2, empty.1.2, recvPosted⟩

theorem rdmaInitStart_teardownInv (conn : Connection size) (serverMr : IbvMr)
    (remote : Nat → UInt8) : TeardownInv (rdmaInitStart conn serverMr remote) where
  before := by simp [sends, history, pipeline, rdmaInitStart]
  last := by simp [rdmaInitStart]
  finished := by simp [rdmaInitStart]
  received := by simp [receives, history, pipeline, rdmaInitStart]
  gone := by simp [rdmaInitStart]
  unused := rfl

/-- A step that neither posts, delivers nor handles a request. -/
theorem TeardownInv.transfer {client next : Client size} (inv : TeardownInv client)
    (handled : next.handled = client.handled) (advanced : pipeline next = pipeline client)
    (doneCalled : next.doneCalled = client.doneCalled)
    (finished : client.doneCalled = true → ∀ tid,
      (next.threads tid).writing = false ∧ (next.threads tid).reading = false)
    (recvPosted : next.recvPosted = client.recvPosted)
    (recvState : next.conn.recvState = client.conn.recvState)
    (eventThread : next.eventThread = client.eventThread)
    (freed : next.freed = client.freed) (usedFreed : next.usedFreed = client.usedFreed) :
    TeardownInv next := by
  have sameHistory : history next = history client := by rw [history, handled, advanced, history]
  refine ⟨?_, ?_, ?_, ?_, ?_, ?_⟩
  · rw [doneCalled, sends, sameHistory]
    exact inv.before
  · rw [doneCalled, sends, sameHistory]
    exact inv.last
  · rw [doneCalled]
    exact finished
  · rw [receives, sameHistory, recvPosted, recvState, eventThread]
    exact inv.received
  · rw [freed, advanced, recvPosted, eventThread]
    exact inv.gone
  · rw [usedFreed]
    exact inv.unused

/-- The event thread on its way from the built to the established connection. -/
theorem TeardownInv.eventThread {client : Client size} {now : EventThread}
    {connected context : Bool} (inv : TeardownInv client)
    (built : client.eventThread ≠ .resolvingAddr) (live : client.eventThread ≠ .exited)
    (stays : now ≠ .resolvingAddr) :
    TeardownInv { client with
      eventThread := now
      connContext := context
      conn := { client.conn with connected := connected } } := by
  refine { inv with received := ?_, gone := fun freed => absurd (inv.gone freed).2.2 live }
  have received := inv.received
  rw [if_neg built] at received
  rw [if_neg stays]
  exact received

/-- A thread of the run leaves or enters a call that posts nothing after DONE. -/
theorem finished_setThread {client : Client size} {tid : Nat} {call : Call size}
    (others : client.doneCalled = true → ∀ tid,
      (client.threads tid).writing = false ∧ (client.threads tid).reading = false)
    (moved : client.doneCalled = true → call.writing = false ∧ call.reading = false)
    (done : client.doneCalled = true) (other : Nat) :
    (Function.update client.threads tid call other).writing = false ∧
      (Function.update client.threads tid call other).reading = false := by
  by_cases same : other = tid
  · subst same
    simpa using moved done
  · simpa [same] using others done other

/-- Reads and writes are posted only before DONE. -/
theorem TeardownInv.post {client next : Client size} {opcode : WrOpcode} (inv : TeardownInv client)
    (early : client.doneCalled = false) (kind : opcode ≠ .send) (live : client.freed = false)
    (handled : next.handled = client.handled)
    (posted : pipeline next = pipeline client ++ [opcode.completion])
    (doneCalled : next.doneCalled = client.doneCalled)
    (recvPosted : next.recvPosted = client.recvPosted)
    (recvState : next.conn.recvState = client.conn.recvState)
    (eventThread : next.eventThread = client.eventThread)
    (freed : next.freed = client.freed) (usedFreed : next.usedFreed = client.usedFreed) :
    TeardownInv next := by
  have longer : history next = history client ++ [opcode.completion] := by
    simp [history, handled, posted]
  have isSend : opcode.completion ≠ .recv ∧ opcode.completion ≠ .send := by
    cases opcode <;> simp at kind ⊢
  refine ⟨?_, ?_, ?_, ?_, ?_, ?_⟩
  · intro _
    have quiet := inv.before early
    rw [sends, longer, List.filter_append, List.mem_append]
    rintro (old | new)
    · exact quiet old
    · simp only [List.mem_filter, List.mem_singleton] at new
      exact isSend.2 new.1.symm
  · simp [doneCalled, early]
  · simp [doneCalled, early]
  · rw [receives, longer, recvPosted, recvState, eventThread, List.count_append,
      List.count_singleton, if_neg (by simpa using isSend.1)]
    exact inv.received
  · simp [freed, live]
  · rw [usedFreed]
    exact inv.unused

theorem usable_live {client : Client size} (usable : usable client = true) :
    client.freed = false := by
  simp only [RdmaPaging.usable, Bool.and_eq_true, Bool.not_eq_true'] at usable
  exact usable.2

theorem donePost_teardownInv {client next : Client size} (inv : TeardownInv client)
    (early : client.doneCalled = false) (idle : ∀ tid, client.threads tid = .idle) {tid : Nat}
    (live : client.freed = false) (handled : next.handled = client.handled)
    (posted : pipeline next = pipeline client ++ [.send]) (doneCalled : next.doneCalled = true)
    (threads : next.threads = Function.update client.threads tid .doneWait)
    (recvPosted : next.recvPosted = client.recvPosted)
    (recvState : next.conn.recvState = client.conn.recvState)
    (eventThread : next.eventThread = client.eventThread)
    (freed : next.freed = client.freed) (usedFreed : next.usedFreed = client.usedFreed) :
    TeardownInv next := by
  have longer : history next = history client ++ [.send] := by simp [history, handled, posted]
  refine ⟨by simp [doneCalled], fun _ => ⟨sends client, ?_, inv.before early⟩, ?_, ?_,
    by simp [freed, live], by rw [usedFreed, inv.unused]⟩
  · simp [sends, longer]
  · intro _ other
    rw [threads]
    by_cases same : other = tid
    · subst same
      simp [Call.writing, Call.reading]
    · simp [same, idle other, Call.writing, Call.reading]
  · rw [receives, longer, recvPosted, recvState, eventThread]
    simpa [receives] using inv.received

theorem stepApi_teardownInv {client next : Client size} {action : Action size}
    (inv : TeardownInv client) (allowed : doneLast client action)
    (stepped : stepApi client action = some next) : TeardownInv next := by
  cases action <;> simp only [stepApi, reduceCtorEq] at stepped
  case writeWait tid offset =>
    split at stepped <;> try simp at stepped
    obtain ⟨_, rfl⟩ := stepped
    have early : client.doneCalled = false := allowed
    exact inv.transfer rfl rfl rfl
      (finished_setThread inv.finished (by simp [early])) rfl rfl rfl rfl rfl
  case writeCopy tid bytes =>
    split at stepped <;> try simp at stepped
    rename_i offset writing
    obtain ⟨_, rfl⟩ := stepped
    have early : client.doneCalled = false := by
      by_contra done
      simpa [writing, Call.writing] using (inv.finished (by simpa using done) tid).1
    exact inv.transfer rfl rfl rfl
      (finished_setThread inv.finished (by simp [early])) rfl rfl rfl rfl rfl
  case writePost tid =>
    split at stepped <;> try simp at stepped
    rename_i offset bytes writing
    obtain ⟨usable, rfl⟩ := stepped
    have early : client.doneCalled = false := by
      by_contra done
      simpa [writing, Call.writing] using (inv.finished (by simpa using done) tid).1
    exact inv.post early (by simp : WrOpcode.rdmaWrite ≠ .send) (usable_live usable) rfl
     (postSend_pipeline client (requestAt client .rdmaWrite offset)) rfl rfl rfl rfl rfl rfl
  case readPost tid offset =>
    split at stepped <;> try simp at stepped
    obtain ⟨usable, rfl⟩ := stepped
    exact inv.post allowed (by simp : WrOpcode.rdmaRead ≠ .send) (usable_live usable) rfl
     (postSend_pipeline client (requestAt client .rdmaRead offset)) rfl rfl rfl rfl rfl rfl
  case readWait tid =>
    split at stepped <;> try simp at stepped
    rename_i offset before ticket reading
    obtain ⟨_, rfl⟩ := stepped
    have early : client.doneCalled = false := by
      by_contra done
      simpa [reading, Call.reading] using (inv.finished (by simpa using done) tid).2
    exact inv.transfer rfl rfl rfl
      (finished_setThread inv.finished (by simp [early])) rfl rfl rfl rfl rfl
  case readCopy tid =>
    split at stepped <;> try simp at stepped
    obtain ⟨_, rfl⟩ := stepped
    exact inv.transfer rfl rfl rfl
      (finished_setThread inv.finished fun _ => ⟨rfl, rfl⟩) rfl rfl rfl rfl rfl
  case donePost tid =>
    split at stepped <;> try simp at stepped
    obtain ⟨⟨usable, _⟩, rfl⟩ := stepped
    exact donePost_teardownInv inv allowed.1 allowed.2 (usable_live usable) rfl
      (postSend_pipeline client ⟨.send, 0, 0, none⟩) rfl rfl rfl rfl rfl rfl rfl
  case doneWait tid =>
    split at stepped <;> try simp at stepped
    obtain ⟨_, rfl⟩ := stepped
    exact inv.transfer rfl rfl rfl
      (finished_setThread inv.finished fun _ => ⟨rfl, rfl⟩) rfl rfl rfl rfl rfl

/-- The completion of DONE is the last one of the send queue. -/
theorem drained_pipeline {client : Client size} (inv : TeardownInv client)
    (sent : .send ∈ client.handled) (noRecv : .recv ∉ pipeline client) :
    pipeline client = [] := by
  have sentBefore : WcOpcode.send ∈ client.handled.filter (· ≠ .recv) := by simp [sent]
  have done : client.doneCalled = true := by
    by_contra early
    apply inv.before (by simpa using early)
    simp [sends, history, sent]
  obtain ⟨earlier, order, once⟩ := inv.last done
  have same : (pipeline client).filter (· ≠ .recv) = pipeline client := by
    rw [List.filter_eq_self]
    intro opcode member
    simpa using fun isRecv : opcode = .recv => noRecv (isRecv ▸ member)
  rw [sends, history, List.filter_append, same] at order
  rcases List.eq_nil_or_concat (pipeline client) with empty | ⟨front, final, split⟩
  · exact empty
  · rw [split, List.concat_eq_append, ← List.append_assoc] at order
    have parts := List.append_inj' order rfl
    exact absurd (parts.1 ▸ List.mem_append_left front sentBefore) once

theorem stepEventThread_teardownInv {client next : Client size} {action : Action size}
    (inv : TeardownInv client) (drained : drainedFirst client action)
    (stepped : stepEventThread client action = some next) : TeardownInv next := by
  cases action <;> simp only [stepEventThread, reduceCtorEq] at stepped
  case addrResolved =>
    split at stepped
    · rename_i resolving
      obtain rfl := Option.some.inj stepped
      have received := inv.received
      rw [if_pos resolving] at received
      refine ⟨inv.before, inv.last, inv.finished, ?_, ?_, inv.unused⟩
      · have built : receives { buildConnection client with eventThread := .resolvingRoute } =
            receives client + 1 := rfl
        rw [built, received]
        simp [buildConnection, postReceives]
      · intro freed
        exact absurd (resolving.symm.trans (inv.gone freed).2.2) (by simp)
    · simp at stepped
  case routeResolved =>
    split at stepped
    · rename_i resolving
      obtain rfl := Option.some.inj stepped
      exact inv.eventThread (by simp [resolving]) (by simp [resolving]) (by simp)
    · simp at stepped
  case onConnect =>
    split at stepped
    · rename_i connecting
      obtain rfl := Option.some.inj stepped
      exact inv.eventThread (by simp [connecting.1]) (by simp [connecting.1]) (by simp)
    · simp at stepped
  case setContext =>
    split at stepped
    · rename_i established
      obtain rfl := Option.some.inj stepped
      exact inv.eventThread (by simp [established]) (by simp [established]) (by simp)
    · simp at stepped
  case onDisconnect =>
    split at stepped
    · rename_i disconnected
      obtain rfl := Option.some.inj stepped
      obtain ⟨sent, received⟩ := drained rfl
      have total := inv.received
      rw [if_neg (by simp [disconnected.1])] at total
      have bound : receives client ≤ 2 := by
        rw [total]
        split <;> omega
      have noRecv : (pipeline client).count .recv = 0 ∧ client.recvPosted = 0 := by
        simp only [receives, history, List.count_append, received] at bound
        omega
      have empty : pipeline client = [] :=
        drained_pipeline inv sent (List.count_eq_zero.mp noRecv.1)
      refine { inv with received := ?_, gone := fun _ => ⟨empty, noRecv.2, rfl⟩ }
      rw [if_neg (by simp)]
      exact total
    · simp at stepped

theorem executeHead_kept (client : Client size) (wr : SendWr size) (rest : List (SendWr size)) :
    (executeHead client wr rest).handled = client.handled ∧
      (executeHead client wr rest).doneCalled = client.doneCalled ∧
      (executeHead client wr rest).threads = client.threads ∧
      (executeHead client wr rest).recvPosted = client.recvPosted ∧
      (executeHead client wr rest).conn.recvState = client.conn.recvState ∧
      (executeHead client wr rest).eventThread = client.eventThread ∧
      (executeHead client wr rest).freed = client.freed ∧
      (executeHead client wr rest).usedFreed = client.usedFreed := by
  unfold executeHead
  split
  · exact ⟨rfl, rfl, rfl, rfl, rfl, rfl, rfl, rfl⟩
  · split <;> exact ⟨rfl, rfl, rfl, rfl, rfl, rfl, rfl, rfl⟩
  · split <;> exact ⟨rfl, rfl, rfl, rfl, rfl, rfl, rfl, rfl⟩

theorem stepNic_teardownInv {client next : Client size} {action : Action size}
    (inv : TeardownInv client) (stepped : stepNic client action = some next) :
    TeardownInv next := by
  cases action <;> simp only [stepNic, reduceCtorEq] at stepped
  case nicFetch index =>
    split at stepped
    · simp at stepped
    · obtain rfl := Option.some.inj stepped
      exact inv.transfer rfl (nicFetch_pipeline client index) rfl inv.finished rfl rfl rfl rfl rfl
  case nicExec =>
    split at stepped
    · simp at stepped
    · split at stepped
      · simp at stepped
      · rename_i wr rest queue
        obtain rfl := Option.some.inj stepped
        obtain ⟨handled, doneCalled, threads, recvPosted, recvState, eventThread, freed,
          usedFreed⟩ := executeHead_kept client wr rest
        exact inv.transfer handled (executeHead_pipeline client wr rest queue) doneCalled
          (threads ▸ inv.finished) recvPosted recvState eventThread freed usedFreed
  case nicComplete =>
    split at stepped
    · simp at stepped
    · split at stepped
      · simp at stepped
      · rename_i wc rest executed
        obtain rfl := Option.some.inj stepped
        exact inv.transfer rfl (nicComplete_pipeline client wc rest _ executed) rfl inv.finished
          rfl rfl rfl rfl rfl
  case nicDeliver =>
    split at stepped
    · simp at stepped
    · rename_i armed
      obtain ⟨live, posted⟩ := not_or.mp armed
      split at stepped
      · simp at stepped
      · rename_i message rest inbound
        obtain rfl := Option.some.inj stepped
        refine ⟨?_, ?_, inv.finished, ?_, fun freed => absurd freed live, inv.unused⟩
        · simpa [sends, history, pipeline] using inv.before
        · simpa [sends, history, pipeline] using inv.last
        · rw [← inv.received]
          simp only [receives, history, pipeline, List.map_append, List.count_append,
            List.map_cons, List.map_nil, List.count_singleton_self]
          omega

/-- A completion leaves the number of receives owed to the server's messages right:
the MR message is answered by the second one. -/
theorem onCompletion_receives {wc : IbvWc} {client done : Client size}
    (handled : onCompletion wc client = some done) :
    (done.recvPosted = client.recvPosted ∧
      (done.conn.recvState = .rsInit ↔ client.conn.recvState = .rsInit)) ∨
    (wc.opcode = .recv ∧ client.conn.recvState = .rsInit ∧ done.conn.recvState = .rsMrRecv ∧
      done.recvPosted = client.recvPosted + 1) := by
  unfold onCompletion at handled
  split at handled
  · simp at handled
  · obtain rfl := Option.some.inj handled
    have finishes : ∀ state : Client size,
        (finishCompletion state).recvPosted = state.recvPosted ∧
          (finishCompletion state).conn = state.conn := by
      intro state
      unfold finishCompletion
      split <;> exact ⟨rfl, rfl⟩
    rw [(finishes _).1, (finishes _).2]
    split
    · rename_i isRecv
      unfold onRecv
      split
      · rename_i first
        refine Or.inr ⟨isRecv, first.1, ?_⟩
        dsimp only
        split <;> exact ⟨rfl, rfl⟩
      · split
        · rename_i second
          exact Or.inl ⟨rfl, by simp [second]⟩
        · exact Or.inl ⟨rfl, Iff.rfl⟩
    · refine Or.inl ?_
      unfold onSend
      split
      · split <;> exact ⟨rfl, Iff.rfl⟩
      · exact ⟨rfl, Iff.rfl⟩

theorem handleWc_teardownInv {wc : IbvWc} {client done : Client size} (inv : TeardownInv client)
    (live : client.freed = false) (polled : client.polled = some wc)
    (completed : onCompletion wc client = some done) :
    TeardownInv { done with polled := none, handled := client.handled ++ [wc.opcode] } := by
  have same := onCompletion_same completed
  have advanced : history { done with
      polled := none, handled := client.handled ++ [wc.opcode] } = history client := by
    simp [history, pipeline, polled, same.cq, same.executed, same.sendQueue]
  refine ⟨?_, ?_, ?_, ?_, ?_, ?_⟩
  · rw [sends, advanced]
    exact same.doneCalled ▸ inv.before
  · rw [sends, advanced]
    exact same.doneCalled ▸ inv.last
  · show done.doneCalled = true → _
    rw [same.doneCalled]
    exact same.threads ▸ inv.finished
  · have received := inv.received
    rw [receives] at received
    rw [receives, advanced]
    show _ + done.recvPosted = if done.eventThread = _ then 0
      else if done.conn.recvState = _ then 1 else 2
    rw [same.eventThread]
    rcases onCompletion_receives completed with
      ⟨recvPosted, recvState⟩ | ⟨isRecv, wasInit, nowMr, recvPosted⟩
    · rw [recvPosted, received]
      simp only [recvState]
    · have counted : 0 < (history client).count .recv := by
        rw [List.count_pos_iff]
        simp [history, pipeline, polled, isRecv]
      rw [recvPosted, nowMr]
      rw [wasInit] at received
      split at received
      · omega
      · rename_i built
        simp only [if_neg built, reduceCtorEq, if_false, if_true] at received ⊢
        omega
  · show done.freed = true → _
    simp [same.freed, live]
  · exact same.usedFreed.trans inv.unused

theorem stepPoller_teardownInv {client next : Client size} {action : Action size}
    (inv : TeardownInv client) (stepped : stepPoller client action = some next) :
    TeardownInv next := by
  cases action <;> simp only [stepPoller, reduceCtorEq] at stepped
  case pollCq =>
    split at stepped
    · rename_i wc rest polled cq
      obtain rfl := Option.some.inj stepped
      exact inv.transfer rfl (pollCq_pipeline client wc rest polled cq) rfl inv.finished
        rfl rfl rfl rfl rfl
    · simp at stepped
  case handleWc =>
    split at stepped
    · rename_i wc polled
      have pending := polled_pipeline client wc polled
      have live : client.freed = false := by
        by_contra freed
        simpa [pending] using (inv.gone (by simpa using freed)).1
      rw [if_neg (by simp [live])] at stepped
      split at stepped
      · rename_i done completed
        obtain rfl := Option.some.inj stepped
        exact handleWc_teardownInv inv live polled completed
      · simp at stepped
    · simp at stepped

theorem stepServer_teardownInv {client next : Client size} {action : Action size}
    (inv : TeardownInv client) (stepped : stepServer client action = some next) :
    TeardownInv next := by
  cases action <;> simp only [stepServer, reduceCtorEq] at stepped
  all_goals
    split at stepped
    · obtain rfl := Option.some.inj stepped
      exact { inv with }
    · simp at stepped

theorem step_teardownInv {client next : Client size} {action : Action size}
    (inv : TeardownInv client) (allowed : doneLast client action)
    (drained : drainedFirst client action) (stepped : step client action = some next) :
    TeardownInv next := by
  unfold step at stepped
  split at stepped
  · cases action <;> simp only [stepInit, reduceCtorEq] at stepped
    split at stepped
    · obtain rfl := Option.some.inj stepped
      exact { inv with }
    · simp at stepped
  · exact stepApi_teardownInv inv allowed stepped
  · exact stepEventThread_teardownInv inv drained stepped
  · exact stepPoller_teardownInv inv stepped
  · exact stepNic_teardownInv inv stepped
  · exact stepServer_teardownInv inv stepped

/-- When DISCONNECTED is handled after the last completion, no completion is handled
for a freed connection and the queue pair is destroyed empty. -/
theorem teardown_clean_when_drained (conn : Connection size) (serverMr : IbvMr)
    (remote : Nat → UInt8) {client : Client size}
    (reached : Machine.Reaches step drainedRun (rdmaInitStart conn serverMr remote) client) :
    CleanTeardown client := by
  have inv := reached.invariant TeardownInv (rdmaInitStart_teardownInv conn serverMr remote)
    fun _ _ _ kept allowed stepped => step_teardownInv kept allowed.1 allowed.2 stepped
  exact inv.clean

theorem teardown_clean_when_drained_done : ∃ client : Client 1,
    Machine.Reaches step drainedRun
      (rdmaInitStart freshConnection ⟨4096, 2, 7⟩ fun _ => 0) client ∧
    client.freed = true ∧ CleanTeardown client := by
  have begun : Machine.Reaches step drainedRun
      (rdmaInitStart freshConnection ⟨4096, 2, 7⟩ fun _ => 0) _ := Machine.Reaches.refl
  have reached := begun
    |>.tail (show drainedRun _ .addrResolved from ⟨trivial, nofun⟩) rfl
    |>.tail (show drainedRun _ .routeResolved from ⟨trivial, nofun⟩) rfl
    |>.tail (show drainedRun _ .serverAccept from ⟨trivial, nofun⟩) rfl
    |>.tail (show drainedRun _ .onConnect from ⟨trivial, nofun⟩) rfl
    |>.tail (show drainedRun _ .setContext from ⟨trivial, nofun⟩) rfl
    |>.tail (show drainedRun _ .serverSendMr from ⟨trivial, nofun⟩) rfl
    |>.tail (show drainedRun _ .nicDeliver from ⟨trivial, nofun⟩) rfl
    |>.tail (show drainedRun _ .pollCq from ⟨trivial, nofun⟩) rfl
    |>.tail (show drainedRun _ .handleWc from ⟨trivial, nofun⟩) rfl
    |>.tail (show drainedRun _ .initReturn from ⟨trivial, nofun⟩) rfl
    |>.tail (show drainedRun _ (.donePost 0) from ⟨⟨rfl, fun _ => rfl⟩, nofun⟩) rfl
    |>.tail (show drainedRun _ .nicExec from ⟨trivial, nofun⟩) rfl
    |>.tail (show drainedRun _ .nicComplete from ⟨trivial, nofun⟩) rfl
    |>.tail (show drainedRun _ .pollCq from ⟨trivial, nofun⟩) rfl
    |>.tail (show drainedRun _ .handleWc from ⟨trivial, nofun⟩) rfl
    |>.tail (show drainedRun _ .serverSendDone from ⟨trivial, nofun⟩) rfl
    |>.tail (show drainedRun _ .nicDeliver from ⟨trivial, nofun⟩) rfl
    |>.tail (show drainedRun _ .pollCq from ⟨trivial, nofun⟩) rfl
    |>.tail (show drainedRun _ .handleWc from ⟨trivial, nofun⟩) rfl
    |>.tail (show drainedRun _ .onDisconnect from ⟨trivial, fun _ => by decide⟩) rfl
  exact ⟨_, reached, rfl, teardown_clean_when_drained _ _ _ reached⟩

/-- The server leaves after both DONEs were sent, while the poller holds the completion
of the client's DONE: the connection is freed under it, with a receive still posted. -/
theorem disconnect_before_completion : ∃ client : Client 1,
    Machine.Reaches step doneLast (rdmaInitStart freshConnection ⟨4096, 2, 7⟩ fun _ => 0) client ∧
    client.usedFreed = true ∧ client.freed = true ∧ client.recvPosted = 1 ∧
    ¬ CleanTeardown client := by
  have begun : Machine.Reaches step doneLast
      (rdmaInitStart freshConnection ⟨4096, 2, 7⟩ fun _ => 0) _ := Machine.Reaches.refl
  have reached := begun
    |>.tail (show doneLast _ .addrResolved from trivial) rfl
    |>.tail (show doneLast _ .routeResolved from trivial) rfl
    |>.tail (show doneLast _ .serverAccept from trivial) rfl
    |>.tail (show doneLast _ .onConnect from trivial) rfl
    |>.tail (show doneLast _ .setContext from trivial) rfl
    |>.tail (show doneLast _ .serverSendMr from trivial) rfl
    |>.tail (show doneLast _ .nicDeliver from trivial) rfl
    |>.tail (show doneLast _ .pollCq from trivial) rfl
    |>.tail (show doneLast _ .handleWc from trivial) rfl
    |>.tail (show doneLast _ .initReturn from trivial) rfl
    |>.tail (show doneLast _ (.donePost 0) from ⟨rfl, fun _ => rfl⟩) rfl
    |>.tail (show doneLast _ .nicExec from trivial) rfl
    |>.tail (show doneLast _ .nicComplete from trivial) rfl
    |>.tail (show doneLast _ .pollCq from trivial) rfl
    |>.tail (show doneLast _ .serverSendDone from trivial) rfl
    |>.tail (show doneLast _ .serverDisconnect from trivial) rfl
    |>.tail (show doneLast _ .onDisconnect from trivial) rfl
    |>.tail (show doneLast _ .handleWc from trivial) rfl
  refine ⟨_, reached, rfl, rfl, rfl, ?_⟩
  rintro ⟨unused, _⟩
  exact absurd unused (by decide)

end RdmaPaging
