import RdmaPaging.ClientDataPath

/-!
The DONE handshake. The send and receive queues are not ordered against each other,
so the poller may handle the server's DONE before the completion of the client's own.
-/

namespace RdmaPaging

variable {size : Nat}

/-- The poller handling a sequence of completions. -/
@[grind =] def handleAll : List IbvWc → Client size → Option (Client size)
  | [], client => some client
  | wc :: rest, client =>
      match onCompletion wc client with
      | some next => handleAll rest next
      | none => none

/-- The handshake is over: both DONEs are recorded, `done_ops` was posted once and
`rdma_disconnect` was called once since `client`. -/
def HandshakeDone (client final : Client size) : Prop :=
  final.conn.sendState = .ssDoneSent ∧ final.conn.recvState = .rsDoneRecv ∧
    final.doneOps = client.doneOps + 1 ∧ final.disconnects = client.disconnects + 1

def dataWc (wc : IbvWc) : Prop :=
  wc.status = .success ∧ (wc.opcode = .rdmaWrite ∨ wc.opcode = .rdmaRead)

theorem handleAll_append {first second : List IbvWc} {client middle : Client size}
    (handled : handleAll first client = some middle) :
    handleAll (first ++ second) client = handleAll second middle := by
  induction first generalizing client with
  | nil =>
      simp only [handleAll, Option.some.injEq] at handled
      rw [List.nil_append, handled]
  | cons wc rest ih =>
      simp only [handleAll, List.cons_append] at handled ⊢
      split at handled
      · exact ih handled
      · simp at handled

/-- Completions of reads and writes leave the handshake where it was. -/
theorem handleAll_data {wcs : List IbvWc} {client : Client size}
    (data : ∀ wc ∈ wcs, dataWc wc)
    (sendState : client.conn.sendState = .ssInit) (recvState : client.conn.recvState = .rsMrRecv) :
    ∃ final, handleAll wcs client = some final ∧ final.conn.sendState = .ssInit ∧
      final.conn.recvState = .rsMrRecv ∧ final.doneOps = client.doneOps ∧
      final.disconnects = client.disconnects := by
  induction wcs generalizing client with
  | nil => exact ⟨client, rfl, sendState, recvState, rfl, rfl⟩
  | cons wc rest ih =>
      obtain ⟨success, kind⟩ := data wc (by simp)
      have restData : ∀ later ∈ rest, dataWc later := fun later member => data later (by simp [member])
      rcases kind with isWrite | isRead
      · have handled : onCompletion wc client =
            some { client with writeOps := client.writeOps + 1 } := by
          simp [onCompletion, success, isWrite, onSend, sendState, recvState, finishCompletion]
        obtain ⟨final, ran, states⟩ :=
          @ih { client with writeOps := client.writeOps + 1 } restData sendState recvState
        exact ⟨final, by simp only [handleAll, handled, ran], states⟩
      · have handled : onCompletion wc client =
            some { client with readOps := client.readOps + 1 } := by
          simp [onCompletion, success, isRead, onSend, sendState, recvState, finishCompletion]
        obtain ⟨final, ran, states⟩ :=
          @ih { client with readOps := client.readOps + 1 } restData sendState recvState
        exact ⟨final, by simp only [handleAll, handled, ran], states⟩

/-- Once the server's DONE is recorded first, every later send completion is ignored. -/
theorem handleAll_ignored {wcs : List IbvWc} {client : Client size}
    (sends : ∀ wc ∈ wcs, wc.status = .success ∧ wc.opcode ≠ .recv)
    (sendState : client.conn.sendState = .ssInit)
    (recvState : client.conn.recvState = .rsDoneRecv) :
    handleAll wcs client = some client := by
  induction wcs with
  | nil => rfl
  | cons wc rest ih =>
      obtain ⟨success, notRecv⟩ := sends wc (by simp)
      have handled : onCompletion wc client = some client := by
        simp [onCompletion, success, notRecv, onSend, sendState, recvState, finishCompletion]
      simp only [handleAll, handled]
      exact ih fun later member => sends later (by simp [member])

/-- The handshake finishes exactly when the receive completion of the server's DONE is
handled after the completion of the client's own DONE. -/
theorem done_handshake_iff {client : Client size} {data before after : List IbvWc}
    (sendState : client.conn.sendState = .ssInit) (recvState : client.conn.recvState = .rsMrRecv)
    (earlier : ∀ wc ∈ data, dataWc wc)
    (interleaved : before ++ after = data ++ [⟨.send, .success⟩]) :
    ∃ final, handleAll (before ++ ⟨.recv, .success⟩ :: after) client = some final ∧
      (HandshakeDone client final ↔ after = []) := by
  by_cases last : after = []
  · subst after
    rw [List.append_nil] at interleaved
    obtain ⟨middle, ran, middleSend, middleRecv, doneOps, disconnects⟩ :=
      handleAll_data earlier sendState recvState
    refine ⟨{ middle with
      conn := { middle.conn with sendState := .ssDoneSent, recvState := .rsDoneRecv }
      doneOps := middle.doneOps + 1
      disconnects := middle.disconnects + 1 }, ?_, ?_⟩
    · rw [interleaved, List.append_assoc, handleAll_append ran]
      simp [handleAll, onCompletion, onSend, onRecv, middleSend, middleRecv, finishCompletion]
    · simp [HandshakeDone, doneOps, disconnects]
  · obtain ⟨front, final, split⟩ := List.eq_nil_or_concat after |>.resolve_left last
    subst after
    have parts : before ++ front = data ∧ [final] = [⟨.send, .success⟩] := by
      apply List.append_inj'
      · simpa using interleaved
      · rfl
    have beforeData : ∀ wc ∈ before, dataWc wc := by
      intro wc member
      exact earlier wc (by simp [← parts.1, member])
    have afterSends : ∀ wc ∈ front ++ [final], wc.status = .success ∧ wc.opcode ≠ .recv := by
      intro wc member
      rw [List.mem_append] at member
      rcases member with inFront | isFinal
      · obtain ⟨success, kind⟩ := earlier wc (by simp [← parts.1, inFront])
        exact ⟨success, by rcases kind with kind | kind <;> simp [kind]⟩
      · rw [parts.2, List.mem_singleton] at isFinal
        simp [isFinal]
    obtain ⟨middle, ran, middleSend, middleRecv, _, _⟩ :=
      handleAll_data beforeData sendState recvState
    refine ⟨{ middle with conn := { middle.conn with recvState := .rsDoneRecv } }, ?_, ?_⟩
    · rw [handleAll_append ran]
      have received : onCompletion ⟨.recv, .success⟩ middle =
          some { middle with conn := { middle.conn with recvState := .rsDoneRecv } } := by
        simp [onCompletion, onRecv, middleRecv, middleSend, finishCompletion]
      simp only [handleAll, received]
      rw [List.concat_eq_append]
      exact handleAll_ignored afterSends middleSend rfl
    · simp [HandshakeDone, middleSend]

theorem done_handshake_iff_outstanding_write : ∃ final : Client 1,
    handleAll ([⟨.rdmaWrite, .success⟩, ⟨.send, .success⟩] ++ ⟨.recv, .success⟩ :: [])
      smallClient = some final ∧
      (HandshakeDone smallClient final ↔ ([] : List IbvWc) = []) := by
  have data : ∀ wc ∈ [(⟨.rdmaWrite, .success⟩ : IbvWc)], dataWc wc := by
    intro wc member
    rw [List.mem_singleton.mp member]
    exact ⟨rfl, Or.inl rfl⟩
  exact done_handshake_iff rfl rfl data rfl

/-- The server's NIC executes the client's DONE, the server answers, and its DONE
arrives before the client's NIC has reported the completion of the client's DONE. All
completions are handled, and the client waits on `done_ops` for ever. -/
theorem done_recv_first : ∃ called final : Client 1,
    Machine.Reaches step (fun _ _ => True) smallClient called ∧ called.doneCalled = true ∧
    called.conn.sendState = .ssInit ∧ called.conn.recvState = .rsMrRecv ∧
    Machine.Reaches step (fun _ _ => True) called final ∧
    final.handled = [.recv, .recv, .send] ∧ pipeline final = [] ∧ final.doneOps = 0 ∧
    ¬ HandshakeDone called final := by
  have begun : Machine.Reaches step (fun _ _ => True) smallClient smallClient :=
    Machine.Reaches.refl
  have asked := begun.tail trivial (show step smallClient (.donePost 0) = some _ from rfl)
  refine ⟨_, _, asked, rfl, rfl, rfl, Machine.Reaches.refl
    |>.tail trivial (show step _ .nicExec = some _ from rfl)
    |>.tail trivial (show step _ .serverSendDone = some _ from rfl)
    |>.tail trivial (show step _ .nicDeliver = some _ from rfl)
    |>.tail trivial (show step _ .pollCq = some _ from rfl)
    |>.tail trivial (show step _ .handleWc = some _ from rfl)
    |>.tail trivial (show step _ .nicComplete = some _ from rfl)
    |>.tail trivial (show step _ .pollCq = some _ from rfl)
    |>.tail trivial (show step _ .handleWc = some _ from rfl), rfl, rfl, rfl, ?_⟩
  rintro ⟨sent, _⟩
  exact absurd sent (by decide)

end RdmaPaging
