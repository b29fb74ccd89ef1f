import RdmaPaging.ClientDataPath

/-!
Several threads in `rdma_read_offset` at once. All of them share one landing buffer
and one counting semaphore, so a call keeps its own bytes only when no other call is
between its post and its copy.
-/

namespace RdmaPaging

variable {size : Nat}

/-- Any number of threads calling `rdma_read_offset` with offsets inside the region. -/
def readersGuard (client : Client size) : Action size → Prop
  | .readPost _ offset => offset + size ≤ client.conn.peerMr.length
  | .readWait _ | .readCopy _ => True
  | .pollCq | .handleWc | .nicExec | .nicComplete => True
  | _ => False

/-- Additionally a READ is posted only when no other call is between its own post and
its copy out of the landing buffer. -/
def oneReaderGuard (client : Client size) (action : Action size) : Prop :=
  readersGuard client action ∧ ∀ tid offset, action = .readPost tid offset →
    ∀ other, (client.threads other).reading = false

/-- Every call that returned has its own bytes, and its own READ had completed. -/
def OwnBytes (start client : Client size) : Prop :=
  ∀ result ∈ client.returned,
    result.bytes = bytesAt start.remote (start.serverMr.addr + result.offset) ∧
      result.completed = true

theorem oneReaderGuard_dataGuard {client : Client size} {action : Action size}
    (allowed : oneReaderGuard client action) : dataGuard client action := by
  obtain ⟨reader, alone⟩ := allowed
  cases action with
  | readPost tid offset => exact ⟨reader, alone tid offset rfl⟩
  | readWait tid | readCopy tid | pollCq | handleWc | nicExec | nicComplete => trivial
  | _ => exact reader.elim

theorem step_posts_nothing {client next : Client size} {action : Action size}
    (allowed : readersGuard client action) (stepped : step client action = some next) :
    next.posted = client.posted := by
  cases action with
  | readPost tid offset | readWait tid | readCopy tid =>
      simp only [step, Action.party, stepApi] at stepped
      split at stepped
      · split at stepped
        · simp only [Option.some.injEq] at stepped
          rw [← stepped]
          rfl
        · simp at stepped
      · simp at stepped
  | pollCq =>
      simp only [step, Action.party, stepPoller] at stepped
      split at stepped
      · simp only [Option.some.injEq] at stepped
        rw [← stepped]
      · simp at stepped
  | handleWc =>
      simp only [step, Action.party, stepPoller] at stepped
      split at stepped
      · split at stepped
        · simp only [Option.some.injEq] at stepped
          rw [← stepped]
        · split at stepped
          · rename_i done completed
            simp only [Option.some.injEq] at stepped
            rw [← stepped]
            exact (onCompletion_same completed).posted
          · simp at stepped
      · simp at stepped
  | nicExec =>
      simp only [step, Action.party, stepNic] at stepped
      split at stepped
      · simp at stepped
      · split at stepped
        · simp at stepped
        · simp only [Option.some.injEq] at stepped
          rw [← stepped]
          unfold executeHead
          split
          · rfl
          · split <;> rfl
          · split <;> rfl
  | nicComplete =>
      simp only [step, Action.party, stepNic] at stepped
      split at stepped
      · simp at stepped
      · split at stepped
        · simp at stepped
        · simp only [Option.some.injEq] at stepped
          rw [← stepped]
  | _ => exact allowed.elim

/-- Calls that do not overlap between post and copy do not mix. -/
theorem reads_do_not_mix {start client : Client size} (ready : Ready start)
    (reached : Machine.Reaches step oneReaderGuard start client) : OwnBytes start client := by
  have inv := reaches_dataInv ready (reached.weaken fun _ _ => oneReaderGuard_dataGuard)
  have quiet : client.posted = [] := by
    apply reached.invariant (fun state => state.posted = []) ready.posted
    intro state action next nothing allowed stepped
    rw [step_posts_nothing allowed.1 stepped, nothing]
  intro result member
  obtain ⟨_, delivered, completed⟩ := inv.readSide.returned result member
  refine ⟨?_, completed⟩
  rw [delivered, expected, quiet, List.take_nil]
  rfl

/-- The server's memory with two different bytes in its region. -/
def twoByteClient : Client 1 :=
  readyClient smallMr (fun address => if address = 4097 then 5 else 3) (fun _ => 0) (fun _ => 0)

theorem reads_do_not_mix_single : ∃ client : Client 1,
    Machine.Reaches step oneReaderGuard twoByteClient client ∧
    client.returned.map (fun result => result.bytes 0) = [5] ∧ OwnBytes twoByteClient client := by
  have ready : Ready twoByteClient := readyClient_ready _ _ _ _ (by decide)
  have begun : Machine.Reaches step oneReaderGuard twoByteClient twoByteClient :=
    Machine.Reaches.refl
  have reached := begun
    |>.tail (show oneReaderGuard _ (.readPost 1 1) from ⟨Nat.le_refl 2, fun _ _ _ _ => rfl⟩) rfl
    |>.tail (show oneReaderGuard _ .nicExec from ⟨trivial, fun _ _ same => by simp at same⟩) rfl
    |>.tail (show oneReaderGuard _ .nicComplete from ⟨trivial, fun _ _ same => by simp at same⟩) rfl
    |>.tail (show oneReaderGuard _ .pollCq from ⟨trivial, fun _ _ same => by simp at same⟩) rfl
    |>.tail (show oneReaderGuard _ .handleWc from ⟨trivial, fun _ _ same => by simp at same⟩) rfl
    |>.tail (show oneReaderGuard _ (.readWait 1) from
      ⟨trivial, fun _ _ same => by simp at same⟩) rfl
    |>.tail (show oneReaderGuard _ (.readCopy 1) from
      ⟨trivial, fun _ _ same => by simp at same⟩) rfl
  exact ⟨_, reached, rfl, reads_do_not_mix ready reached⟩

/-- Two threads post READs of offsets 0 and 1. When the first READ completes, the second
thread takes the semaphore, copies the byte of offset 0 and returns although its own
READ has not been executed. -/
theorem overlapping_reads_mix : ¬ ∀ client : Client 1,
    Machine.Reaches step readersGuard twoByteClient client → OwnBytes twoByteClient client := by
  intro claim
  have begun : Machine.Reaches step readersGuard twoByteClient twoByteClient :=
    Machine.Reaches.refl
  have reached := begun
    |>.tail (show readersGuard _ (.readPost 0 0) from Nat.le_succ 1) rfl
    |>.tail (show readersGuard _ (.readPost 1 1) from Nat.le_refl 2) rfl
    |>.tail (show readersGuard _ .nicExec from trivial) rfl
    |>.tail (show readersGuard _ .nicComplete from trivial) rfl
    |>.tail (show readersGuard _ .pollCq from trivial) rfl
    |>.tail (show readersGuard _ .handleWc from trivial) rfl
    |>.tail (show readersGuard _ (.readWait 1) from trivial) rfl
    |>.tail (show readersGuard _ (.readCopy 1) from trivial) rfl
  obtain ⟨own, _⟩ := claim _ reached _ (List.mem_singleton_self _)
  have wrong : (3 : UInt8) = 5 := congrFun own 0
  exact absurd wrong (by decide)

end RdmaPaging
