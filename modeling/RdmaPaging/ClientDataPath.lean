import Mathlib.Data.List.Count
import RdmaPaging.Machine
import RdmaPaging.ClientPipeline

/-!
Reads and writes on a connection that has finished `rdma_init`. The remote memory
with the queued requests still to come always equals the memory that the posted
writes describe, one WRITE at most is between `write_ops` and its completion, and a
lone reader finds its own bytes in the landing buffer.
-/

namespace RdmaPaging

variable {size : Nat}

/-- The memory left by a sequence of writes at offsets of the region at `base`. -/
@[grind =] def remoteAfter (base : Nat) : (Nat → UInt8) → List (Nat × Buf size) → (Nat → UInt8)
  | memory, [] => memory
  | memory, (offset, bytes) :: rest => remoteAfter base (place memory (base + offset) bytes) rest

/-- The remote memory once the queued requests have been executed. -/
@[grind =] def settle (staging : Buf size) : (Nat → UInt8) → List (SendWr size) → (Nat → UInt8)
  | remote, [] => remote
  | remote, wr :: rest => settle staging (wr.effect staging remote) rest

/-- What the queued READs will find, in order. -/
@[grind =] def readValues (staging : Buf size) : (Nat → UInt8) → List (SendWr size) → List (Buf size)
  | _, [] => []
  | remote, wr :: rest =>
      if wr.opcode = .rdmaRead then
        bytesAt remote wr.remoteAddr :: readValues staging (wr.effect staging remote) rest
      else readValues staging (wr.effect staging remote) rest

theorem remoteAfter_append (base : Nat) (memory : Nat → UInt8) (writes : List (Nat × Buf size))
    (offset : Nat) (bytes : Buf size) :
    remoteAfter base memory (writes ++ [(offset, bytes)]) =
      place (remoteAfter base memory writes) (base + offset) bytes := by
  induction writes generalizing memory with
  | nil => rfl
  | cons write rest ih => exact ih _

theorem settle_append (staging : Buf size) (remote : Nat → UInt8) (queue : List (SendWr size))
    (wr : SendWr size) :
    settle staging remote (queue ++ [wr]) = wr.effect staging (settle staging remote queue) := by
  induction queue generalizing remote with
  | nil => rfl
  | cons head rest ih => exact ih _

theorem settle_fetchAt (staging : Buf size) (index : Nat) (remote : Nat → UInt8)
    (queue : List (SendWr size)) :
    settle staging remote (fetchAt staging index queue) = settle staging remote queue := by
  induction queue generalizing index remote with
  | nil => simp [fetchAt]
  | cons wr rest ih =>
      cases index with
      | zero => simp [fetchAt, settle, fetch_effect]
      | succ index => simp [fetchAt, settle, ih]

theorem readValues_append (staging : Buf size) (remote : Nat → UInt8)
    (queue : List (SendWr size)) (wr : SendWr size) :
    readValues staging remote (queue ++ [wr]) = readValues staging remote queue ++
      (if wr.opcode = .rdmaRead then
        [bytesAt (settle staging remote queue) wr.remoteAddr] else []) := by
  induction queue generalizing remote with
  | nil => simp [readValues, settle]
  | cons head rest ih =>
      simp only [List.cons_append, readValues, settle, ih]
      split <;> rfl

theorem readValues_fetchAt (staging : Buf size) (index : Nat) (remote : Nat → UInt8)
    (queue : List (SendWr size)) :
    readValues staging remote (fetchAt staging index queue) = readValues staging remote queue := by
  induction queue generalizing index remote with
  | nil => simp [fetchAt]
  | cons wr rest ih =>
      cases index with
      | zero => simp [fetchAt, readValues, fetch_effect, fetch_opcode, fetch_remoteAddr]
      | succ index => simp [fetchAt, readValues, ih]

theorem readValues_length (staging : Buf size) (remote : Nat → UInt8)
    (queue : List (SendWr size)) :
    (readValues staging remote queue).length =
      (queue.map fun wr => wr.opcode.completion).count .rdmaRead := by
  induction queue generalizing remote with
  | nil => rfl
  | cons wr rest ih =>
      cases opcode : wr.opcode <;> simp [readValues, opcode, ih]

/-- Without a queued WRITE the staging buffer has no influence. -/
theorem staging_irrelevant (staging other : Buf size) (remote : Nat → UInt8)
    (queue : List (SendWr size))
    (quiet : (queue.map fun wr => wr.opcode.completion).count .rdmaWrite = 0) :
    settle staging remote queue = settle other remote queue ∧
      readValues staging remote queue = readValues other remote queue := by
  induction queue generalizing remote with
  | nil => exact ⟨rfl, rfl⟩
  | cons wr rest ih =>
      cases opcode : wr.opcode with
      | send =>
          have tail := ih remote (by simpa [opcode] using quiet)
          simpa [settle, readValues, SendWr.effect, opcode] using tail
      | rdmaRead =>
          have tail := ih remote (by simpa [opcode] using quiet)
          simpa [settle, readValues, SendWr.effect, opcode] using tail
      | rdmaWrite => simp [opcode] at quiet

/-- A connection as `rdma_init` leaves it, with no request outstanding. -/
structure Ready (client : Client size) : Prop where
  usable : usable client = true
  sendState : client.conn.sendState = .ssInit
  recvState : client.conn.recvState = .rsMrRecv
  peerMr : client.conn.peerMr = client.serverMr
  region : client.serverMr.addr + client.serverMr.length < 2 ^ 64
  readOps : client.readOps = 0
  writeOps : client.writeOps = 1
  threads : ∀ tid, client.threads tid = .idle
  pipeline : pipeline client = []
  posted : client.posted = []
  reads : client.readsPosted = client.readsCompleted
  returned : client.returned = []

/-- The steps of concurrent writers and of one reader at a time, with the NIC and the
poller running. Offsets stay inside the server's region. -/
def dataGuard (client : Client size) : Action size → Prop
  | .writeWait _ offset => offset + size ≤ client.conn.peerMr.length
  | .readPost _ offset =>
      offset + size ≤ client.conn.peerMr.length ∧ ∀ tid, (client.threads tid).reading = false
  | .writeCopy _ _ | .writePost _ | .readWait _ | .readCopy _ => True
  | .pollCq | .handleWc | .nicFetch _ | .nicExec | .nicComplete => True
  | _ => False

/-- The bytes at `offset` after the first `before` writes posted on the connection. -/
def expected (start client : Client size) (offset before : Nat) : Buf size :=
  bytesAt (remoteAfter start.serverMr.addr start.remote (client.posted.take before))
    (start.serverMr.addr + offset)

/-- What every step keeps about the connection itself. -/
structure Plumbing (start client : Client size) : Prop where
  usable : usable client = true
  sendState : client.conn.sendState = .ssInit
  recvState : client.conn.recvState = .rsMrRecv
  peerMr : client.conn.peerMr = start.serverMr
  serverMr : client.serverMr = start.serverMr
  region : start.serverMr.addr + start.serverMr.length < 2 ^ 64
  fits : ∀ wr ∈ client.sendQueue, accessOk start.serverMr wr = true
  kinds : ∀ opcode ∈ pipeline client, opcode = .rdmaRead ∨ opcode = .rdmaWrite
  successes : ∀ wc ∈ client.polled.toList ++ client.cq ++ client.executed, wc.status = .success
  offsets : ∀ tid offset, (client.threads tid = .writeCopy offset ∨
    ∃ bytes, client.threads tid = .writePost offset bytes) →
      offset + size ≤ start.serverMr.length

/-- One token moves between `write_ops`, a writing thread and an outstanding WRITE. -/
structure WriteSide (start client : Client size) : Prop where
  tokens : client.writeOps + (pipeline client).count .rdmaWrite ≤ 1
  writer : ∀ tid, (client.threads tid).writing = true →
    client.writeOps + (pipeline client).count .rdmaWrite = 0 ∧
      ∀ other, (client.threads other).writing = true → other = tid
  staged : ∀ tid offset bytes, client.threads tid = .writePost offset bytes →
    client.conn.rdmaRemoteRegion = bytes
  settled : settle client.conn.rdmaRemoteRegion client.remote client.sendQueue =
    remoteAfter start.serverMr.addr start.remote client.posted

/-- The READ of the waiting thread, wherever it is, brings that thread's bytes. -/
structure ReadSide (start client : Client size) : Prop where
  idle : (∀ tid, (client.threads tid).reading = false) →
    client.readOps + (pipeline client).count .rdmaRead = 0
  alone : ∀ tid other, (client.threads tid).reading = true →
    (client.threads other).reading = true → other = tid
  waiting : ∀ tid offset before ticket, client.threads tid = .readWait offset before ticket →
    client.readOps + (pipeline client).count .rdmaRead = 1 ∧
      before ≤ client.posted.length ∧ ticket < client.readsPosted ∧
      (∀ value ∈ readValues client.conn.rdmaRemoteRegion client.remote client.sendQueue,
        value = expected start client offset before) ∧
      (readValues client.conn.rdmaRemoteRegion client.remote client.sendQueue = [] →
        client.conn.rdmaLocalRegion = expected start client offset before)
  copying : ∀ tid offset before ticket, client.threads tid = .readCopy offset before ticket →
    client.readOps + (pipeline client).count .rdmaRead = 0 ∧
      before ≤ client.posted.length ∧ ticket < client.readsPosted ∧
      client.conn.rdmaLocalRegion = expected start client offset before
  counted : client.readsPosted ≤ client.readsCompleted +
    ((client.executed.map IbvWc.opcode ++
      client.sendQueue.map fun wr => wr.opcode.completion).count .rdmaRead)
  returned : ∀ result ∈ client.returned, result.before ≤ client.posted.length ∧
    result.bytes = expected start client result.offset result.before ∧ result.completed = true

structure DataInv (start client : Client size) : Prop where
  plumbing : Plumbing start client
  writeSide : WriteSide start client
  readSide : ReadSide start client

theorem Ready.dataInv {client : Client size} (ready : Ready client) : DataInv client client := by
  have empty := ready.pipeline
  simp only [RdmaPaging.pipeline, List.append_eq_nil_iff, List.map_eq_nil_iff] at empty
  obtain ⟨⟨⟨polled, cq⟩, executed⟩, sendQueue⟩ := empty
  refine ⟨⟨ready.usable, ready.sendState, ready.recvState, ready.peerMr, rfl, ready.region,
    ?_, ?_, ?_, ?_⟩, ⟨?_, ?_, ?_, ?_⟩, ⟨?_, ?_, ?_, ?_, ?_, ?_⟩⟩
  · simp [sendQueue]
  · simp [ready.pipeline]
  · simp [polled, cq, executed]
  · simp [ready.threads]
  · simp [ready.pipeline, ready.writeOps]
  · simp [ready.threads, Call.writing]
  · simp [ready.threads]
  · simp [sendQueue, settle, ready.posted, remoteAfter]
  · simp [ready.pipeline, ready.readOps]
  · simp [ready.threads, Call.reading]
  · simp [ready.threads]
  · simp [ready.threads]
  · simp [ready.reads]
  · simp [ready.returned]

theorem setThread_threads (client : Client size) (tid other : Nat) (call : Call size) :
    (setThread client tid call).threads other =
      if other = tid then call else client.threads other := by
  simp [setThread, Function.update_apply]

theorem expected_posted {start client next : Client size} {offset before : Nat}
    {writes : List (Nat × Buf size)} (posted : next.posted = client.posted ++ writes)
    (bound : before ≤ client.posted.length) :
    expected start next offset before = expected start client offset before := by
  simp only [expected, posted]
  rw [List.take_append_of_le_length bound]

/-- A step that moves WRITEs along and leaves threads and memory in place. -/
theorem WriteSide.transfer {start client next : Client size} (writeSide : WriteSide start client)
    (threads : next.threads = client.threads)
    (tokens : next.writeOps + (pipeline next).count .rdmaWrite =
      client.writeOps + (pipeline client).count .rdmaWrite)
    (staging : next.conn.rdmaRemoteRegion = client.conn.rdmaRemoteRegion)
    (settled : settle client.conn.rdmaRemoteRegion next.remote next.sendQueue =
      settle client.conn.rdmaRemoteRegion client.remote client.sendQueue)
    (posted : next.posted = client.posted) : WriteSide start next := by
  refine ⟨?_, ?_, ?_, ?_⟩
  · rw [tokens]
    exact writeSide.tokens
  · rw [threads, tokens]
    exact writeSide.writer
  · rw [threads, staging]
    exact writeSide.staged
  · rw [staging, settled, posted]
    exact writeSide.settled

/-- A step that moves READs along and changes neither what they find nor the landing
buffer. -/
theorem ReadSide.transfer {start client next : Client size} (readSide : ReadSide start client)
    (writes : List (Nat × Buf size))
    (threads : next.threads = client.threads)
    (tokens : next.readOps + (pipeline next).count .rdmaRead =
      client.readOps + (pipeline client).count .rdmaRead)
    (posted : next.posted = client.posted ++ writes)
    (readsPosted : next.readsPosted = client.readsPosted)
    (values : readValues next.conn.rdmaRemoteRegion next.remote next.sendQueue =
      readValues client.conn.rdmaRemoteRegion client.remote client.sendQueue)
    (landing : next.conn.rdmaLocalRegion = client.conn.rdmaLocalRegion)
    (counted : next.readsPosted ≤ next.readsCompleted +
      ((next.executed.map IbvWc.opcode ++
        next.sendQueue.map fun wr => wr.opcode.completion).count .rdmaRead))
    (returned : next.returned = client.returned) : ReadSide start next := by
  have longer : client.posted.length ≤ next.posted.length := by simp [posted]
  refine ⟨?_, ?_, ?_, ?_, counted, ?_⟩
  · rw [threads, tokens]
    exact readSide.idle
  · rw [threads]
    exact readSide.alone
  · rw [threads, tokens, values, landing, readsPosted]
    intro tid offset before ticket calls
    obtain ⟨count, bound, ticketBound, found, landed⟩ :=
      readSide.waiting tid offset before ticket calls
    rw [expected_posted posted bound]
    exact ⟨count, by omega, ticketBound, found, landed⟩
  · rw [threads, tokens, landing, readsPosted]
    intro tid offset before ticket calls
    obtain ⟨count, bound, ticketBound, landed⟩ :=
      readSide.copying tid offset before ticket calls
    rw [expected_posted posted bound]
    exact ⟨count, by omega, ticketBound, landed⟩
  · rw [returned]
    intro result member
    obtain ⟨bound, delivered, completed⟩ := readSide.returned result member
    rw [expected_posted posted bound]
    exact ⟨by omega, delivered, completed⟩

/-- A thread that neither was nor becomes a writer does not matter to the writers. -/
theorem WriteSide.setThread {start client : Client size} (writeSide : WriteSide start client)
    {tid : Nat} {call : Call size} (was : (client.threads tid).writing = false)
    (becomes : call.writing = false) : WriteSide start (setThread client tid call) := by
  have writer_iff : ∀ other, ((RdmaPaging.setThread client tid call).threads other).writing =
      (client.threads other).writing := by
    intro other
    rw [setThread_threads]
    split
    · rename_i same
      rw [same, was, becomes]
    · rfl
  refine ⟨writeSide.tokens, ?_, ?_, writeSide.settled⟩
  · intro other busy
    rw [writer_iff] at busy
    obtain ⟨noToken, only⟩ := writeSide.writer other busy
    refine ⟨noToken, ?_⟩
    intro third thirdBusy
    rw [writer_iff] at thirdBusy
    exact only third thirdBusy
  · intro other offset bytes calls
    rw [setThread_threads] at calls
    split at calls
    · simp [calls, Call.writing] at becomes
    · exact writeSide.staged other offset bytes calls

/-- A thread that neither was nor becomes a reader does not matter to the reader. -/
theorem ReadSide.setThread {start client : Client size} (readSide : ReadSide start client)
    {tid : Nat} {call : Call size} (was : (client.threads tid).reading = false)
    (becomes : call.reading = false) : ReadSide start (setThread client tid call) := by
  have reader_iff : ∀ other, ((RdmaPaging.setThread client tid call).threads other).reading =
      (client.threads other).reading := by
    intro other
    rw [setThread_threads]
    split
    · rename_i same
      rw [same, was, becomes]
    · rfl
  refine ⟨?_, ?_, ?_, ?_, readSide.counted, readSide.returned⟩
  · intro quiet
    exact readSide.idle fun other => by rw [← reader_iff, quiet]
  · intro other third busy thirdBusy
    rw [reader_iff] at busy thirdBusy
    exact readSide.alone other third busy thirdBusy
  · intro other offset before ticket calls
    rw [setThread_threads] at calls
    split at calls
    · simp [calls, Call.reading] at becomes
    · exact readSide.waiting other offset before ticket calls
  · intro other offset before ticket calls
    rw [setThread_threads] at calls
    split at calls
    · simp [calls, Call.reading] at becomes
    · exact readSide.copying other offset before ticket calls

theorem Plumbing.setThread {start client : Client size} (plumbing : Plumbing start client)
    {tid : Nat} {call : Call size}
    (room : ∀ offset, (call = .writeCopy offset ∨ ∃ bytes, call = .writePost offset bytes) →
      offset + size ≤ start.serverMr.length) :
    Plumbing start (setThread client tid call) := by
  refine ⟨plumbing.usable, plumbing.sendState, plumbing.recvState, plumbing.peerMr,
    plumbing.serverMr, plumbing.region, plumbing.fits, plumbing.kinds, plumbing.successes, ?_⟩
  intro other offset calls
  rw [setThread_threads] at calls
  split at calls
  · exact room offset calls
  · exact plumbing.offsets other offset calls

/-- A request at an offset inside the region goes to the region and nowhere else. -/
theorem requestAt_fits {start client : Client size} (plumbing : Plumbing start client)
    (opcode : WrOpcode) {offset : Nat} (bound : offset + size ≤ start.serverMr.length) :
    (requestAt client opcode offset).remoteAddr = start.serverMr.addr + offset ∧
      accessOk start.serverMr (requestAt client opcode offset) = true := by
  have region := plumbing.region
  have address : (requestAt client opcode offset).remoteAddr = start.serverMr.addr + offset := by
    simp only [requestAt, plumbing.peerMr]
    apply Nat.mod_eq_of_lt
    omega
  refine ⟨address, ?_⟩
  simp only [accessOk, address, Bool.and_eq_true, decide_eq_true_eq]
  refine ⟨⟨?_, by omega⟩, by omega⟩
  simp [requestAt, plumbing.peerMr]

theorem Plumbing.postSend {start client : Client size} (plumbing : Plumbing start client)
    {wr : SendWr size} (fits : accessOk start.serverMr wr = true)
    (kind : wr.opcode.completion = .rdmaRead ∨ wr.opcode.completion = .rdmaWrite) :
    Plumbing start (postSend client wr) := by
  refine ⟨plumbing.usable, plumbing.sendState, plumbing.recvState, plumbing.peerMr,
    plumbing.serverMr, plumbing.region, ?_, ?_, plumbing.successes, plumbing.offsets⟩
  · intro queued member
    simp only [RdmaPaging.postSend, List.mem_append, List.mem_singleton] at member
    rcases member with old | new
    · exact plumbing.fits queued old
    · rw [new]
      exact fits
  · intro opcode member
    rw [postSend_pipeline, List.mem_append, List.mem_singleton] at member
    rcases member with old | new
    · exact plumbing.kinds opcode old
    · rw [new]
      exact kind

theorem writeWait_dataInv {start client next : Client size} {tid offset : Nat}
    (inv : DataInv start client) (allowed : dataGuard client (.writeWait tid offset))
    (stepped : step client (.writeWait tid offset) = some next) : DataInv start next := by
  obtain ⟨plumbing, writeSide, readSide⟩ := inv
  simp only [step, Action.party, stepApi] at stepped
  split at stepped
  · rename_i wasIdle
    split at stepped
    · rename_i enabled
      simp only [Option.some.injEq] at stepped
      subst next
      have tokens := writeSide.tokens
      have noWriter : ∀ other, (client.threads other).writing = false := by
        intro other
        by_contra busy
        have taken := (writeSide.writer other (by simpa using busy)).1
        omega
      refine ⟨?_, ⟨?_, ?_, ?_, writeSide.settled⟩, ?_⟩
      · apply Plumbing.setThread
        · exact { plumbing with }
        · rintro position (same | ⟨bytes, same⟩)
          · have bound : offset + size ≤ client.conn.peerMr.length := allowed
            rw [plumbing.peerMr] at bound
            simp only [Call.writeCopy.injEq] at same
            omega
          · simp at same
      · change client.writeOps - 1 + (pipeline client).count .rdmaWrite ≤ 1
        omega
      · intro other busy
        refine ⟨?_, ?_⟩
        · change client.writeOps - 1 + (pipeline client).count .rdmaWrite = 0
          omega
        · intro third thirdBusy
          rw [setThread_threads] at busy thirdBusy
          split at busy
          · split at thirdBusy
            · omega
            · simp [noWriter third] at thirdBusy
          · simp [noWriter other] at busy
      · intro other position bytes calls
        rw [setThread_threads] at calls
        split at calls
        · simp at calls
        · exact writeSide.staged other position bytes calls
      · apply ReadSide.setThread
        · exact { readSide with }
        · simp [wasIdle, Call.reading]
        · rfl
    · simp at stepped
  · simp at stepped

theorem writeCopy_dataInv {start client next : Client size} {tid : Nat} {bytes : Buf size}
    (inv : DataInv start client)
    (stepped : step client (.writeCopy tid bytes) = some next) : DataInv start next := by
  obtain ⟨plumbing, writeSide, readSide⟩ := inv
  simp only [step, Action.party, stepApi] at stepped
  split at stepped
  · rename_i offset inCall
    split at stepped
    · simp only [Option.some.injEq] at stepped
      subst next
      obtain ⟨noToken, only⟩ := writeSide.writer tid (by simp [inCall, Call.writing])
      have quiet : (client.sendQueue.map fun wr => wr.opcode.completion).count .rdmaWrite = 0 := by
        simp only [pipeline, List.count_append] at noToken
        omega
      obtain ⟨sameSettle, sameReads⟩ := staging_irrelevant client.conn.rdmaRemoteRegion bytes
        client.remote client.sendQueue quiet
      have single : ∀ other, ((setThread client tid (.writePost offset bytes)).threads
          other).writing = true → other = tid := by
        intro other busy
        rw [setThread_threads] at busy
        split at busy
        · assumption
        · exact only other busy
      refine ⟨?_, ⟨writeSide.tokens, ?_, ?_, ?_⟩, ?_⟩
      · apply Plumbing.setThread
        · exact { plumbing with }
        · rintro position (same | ⟨copied, same⟩)
          · simp at same
          · simp only [Call.writePost.injEq] at same
            rw [← same.1]
            exact plumbing.offsets tid offset (Or.inl inCall)
      · intro other busy
        refine ⟨noToken, ?_⟩
        intro third thirdBusy
        rw [single third thirdBusy, single other busy]
      · intro other position copied calls
        change (RdmaPaging.setThread client tid (.writePost offset bytes)).threads other = _ at calls
        rw [setThread_threads] at calls
        split at calls
        · simp only [Call.writePost.injEq] at calls
          exact calls.2
        · have isTid := only other (by simp [calls, Call.writing])
          contradiction
      · exact sameSettle.symm.trans writeSide.settled
      · apply ReadSide.setThread
        · exact readSide.transfer [] rfl rfl (by simp) rfl sameReads.symm rfl
            readSide.counted rfl
        · simp [inCall, Call.reading]
        · rfl
    · simp at stepped
  · simp at stepped

theorem postSend_reads (client : Client size) {wr : SendWr size} (kind : wr.opcode ≠ .rdmaRead) :
    (pipeline (postSend client wr)).count .rdmaRead = (pipeline client).count .rdmaRead := by
  rw [postSend_pipeline]
  cases opcode : wr.opcode <;> simp_all

theorem writePost_dataInv {start client next : Client size} {tid : Nat}
    (inv : DataInv start client)
    (stepped : step client (.writePost tid) = some next) : DataInv start next := by
  obtain ⟨plumbing, writeSide, readSide⟩ := inv
  simp only [step, Action.party, stepApi] at stepped
  split at stepped
  · rename_i offset bytes inCall
    split at stepped
    · simp only [Option.some.injEq] at stepped
      subst next
      obtain ⟨noToken, only⟩ := writeSide.writer tid (by simp [inCall, Call.writing])
      have staged := writeSide.staged tid offset bytes inCall
      obtain ⟨address, fits⟩ := requestAt_fits plumbing .rdmaWrite
        (plumbing.offsets tid offset (Or.inr ⟨bytes, inCall⟩))
      refine ⟨?_, ⟨?_, ?_, ?_, ?_⟩, ?_⟩
      · apply Plumbing.setThread
        · exact { plumbing.postSend fits (Or.inr rfl) with }
        · rintro position (same | ⟨copied, same⟩) <;> simp at same
      · change client.writeOps +
          (pipeline (postSend client (requestAt client .rdmaWrite offset))).count .rdmaWrite ≤ 1
        rw [postSend_pipeline, List.count_append]
        change client.writeOps + ((pipeline client).count .rdmaWrite + 1) ≤ 1
        omega
      · intro other busy
        change ((RdmaPaging.setThread client tid .idle).threads other).writing = true at busy
        rw [setThread_threads] at busy
        split at busy
        · simp [Call.writing] at busy
        · have isTid := only other busy
          contradiction
      · intro other position copied calls
        change (RdmaPaging.setThread client tid .idle).threads other = _ at calls
        rw [setThread_threads] at calls
        split at calls
        · simp at calls
        · exact writeSide.staged other position copied calls
      · change settle client.conn.rdmaRemoteRegion client.remote
          (client.sendQueue ++ [requestAt client .rdmaWrite offset]) =
          remoteAfter start.serverMr.addr start.remote (client.posted ++ [(offset, bytes)])
        rw [settle_append, remoteAfter_append, writeSide.settled]
        change place _ (requestAt client .rdmaWrite offset).remoteAddr
          client.conn.rdmaRemoteRegion = _
        rw [address, staged]
      · apply ReadSide.setThread
        · refine readSide.transfer [(offset, bytes)] rfl ?_ rfl rfl ?_ rfl ?_ rfl
          · change client.readOps + (pipeline (postSend client _)).count .rdmaRead = _
            rw [postSend_reads client (by simp [requestAt])]
          · change readValues client.conn.rdmaRemoteRegion client.remote
              (client.sendQueue ++ [requestAt client .rdmaWrite offset]) = _
            rw [readValues_append]
            simp [requestAt]
          · change client.readsPosted ≤ client.readsCompleted + (client.executed.map IbvWc.opcode ++
              (client.sendQueue ++ [requestAt client .rdmaWrite offset]).map
                fun wr => wr.opcode.completion).count .rdmaRead
            have counted := readSide.counted
            simpa [requestAt] using counted
        · change (client.threads tid).reading = false
          rw [inCall]
          rfl
        · rfl
    · simp at stepped
  · simp at stepped

theorem readPost_dataInv {start client next : Client size} {tid offset : Nat}
    (inv : DataInv start client) (allowed : dataGuard client (.readPost tid offset))
    (stepped : step client (.readPost tid offset) = some next) : DataInv start next := by
  obtain ⟨plumbing, writeSide, readSide⟩ := inv
  obtain ⟨bound, noReader⟩ := allowed
  rw [plumbing.peerMr] at bound
  simp only [step, Action.party, stepApi] at stepped
  split at stepped
  · rename_i wasIdle
    split at stepped
    · simp only [Option.some.injEq] at stepped
      subst next
      obtain ⟨address, fits⟩ := requestAt_fits plumbing .rdmaRead bound
      have quiet := readSide.idle noReader
      have noQueued : readValues client.conn.rdmaRemoteRegion client.remote client.sendQueue = [] := by
        rw [← List.length_eq_zero_iff, readValues_length]
        simp only [pipeline, List.count_append] at quiet
        omega
      have one : (pipeline (postSend client (requestAt client .rdmaRead offset))).count .rdmaRead =
          (pipeline client).count .rdmaRead + 1 := by
        rw [postSend_pipeline]
        simp [requestAt]
      have found : readValues client.conn.rdmaRemoteRegion client.remote
          (client.sendQueue ++ [requestAt client .rdmaRead offset]) =
          [expected start client offset client.posted.length] := by
        rw [readValues_append, noQueued, writeSide.settled, address]
        simp [requestAt, expected]
      have only : ∀ other, ((setThread client tid (.readWait offset client.posted.length
          client.readsPosted)).threads other).reading = true → other = tid := by
        intro other busy
        rw [setThread_threads] at busy
        split at busy
        · assumption
        · simp [noReader other] at busy
      refine ⟨?_, ?_, ⟨?_, ?_, ?_, ?_, ?_, ?_⟩⟩
      · apply Plumbing.setThread
        · exact { plumbing.postSend fits (Or.inl rfl) with }
        · rintro position (same | ⟨copied, same⟩) <;> simp at same
      · apply WriteSide.setThread
        · refine writeSide.transfer rfl ?_ rfl ?_ rfl
          · change client.writeOps + (pipeline (postSend client _)).count .rdmaWrite = _
            rw [postSend_pipeline]
            simp [requestAt]
          · change settle _ client.remote (client.sendQueue ++ [requestAt client .rdmaRead offset]) = _
            rw [settle_append]
            simp [SendWr.effect, requestAt]
        · change (client.threads tid).writing = false
          rw [wasIdle]
          rfl
        · rfl
      · intro none
        have still := none tid
        rw [setThread_threads] at still
        simp [Call.reading] at still
      · intro other third busy thirdBusy
        rw [only other busy, only third thirdBusy]
      · intro other position before ticket calls
        change (RdmaPaging.setThread client tid _).threads other = _ at calls
        have isTid := only other (by rw [calls]; rfl)
        rw [setThread_threads, if_pos isTid] at calls
        simp only [Call.readWait.injEq] at calls
        obtain ⟨rfl, rfl, rfl⟩ := calls
        refine ⟨?_, Nat.le_refl _, Nat.lt_succ_self _, ?_, ?_⟩
        · change client.readOps + (pipeline (postSend client _)).count .rdmaRead = 1
          rw [one]
          omega
        · intro value member
          change value ∈ readValues client.conn.rdmaRemoteRegion client.remote
            (client.sendQueue ++ [requestAt client .rdmaRead offset]) at member
          rw [found, List.mem_singleton] at member
          exact member
        · intro empty
          change readValues client.conn.rdmaRemoteRegion client.remote
            (client.sendQueue ++ [requestAt client .rdmaRead offset]) = [] at empty
          rw [found] at empty
          simp at empty
      · intro other position before ticket calls
        change (RdmaPaging.setThread client tid _).threads other = _ at calls
        have isTid := only other (by rw [calls]; rfl)
        rw [setThread_threads, if_pos isTid] at calls
        simp at calls
      · change client.readsPosted + 1 ≤ client.readsCompleted + (client.executed.map IbvWc.opcode ++
          (client.sendQueue ++ [requestAt client .rdmaRead offset]).map
            fun wr => wr.opcode.completion).count .rdmaRead
        have counted := readSide.counted
        simp [requestAt] at counted ⊢
        omega
      · exact readSide.returned
    · simp at stepped
  · simp at stepped

theorem readWait_dataInv {start client next : Client size} {tid : Nat}
    (inv : DataInv start client)
    (stepped : step client (.readWait tid) = some next) : DataInv start next := by
  obtain ⟨plumbing, writeSide, readSide⟩ := inv
  simp only [step, Action.party, stepApi] at stepped
  split at stepped
  · rename_i offset before ticket inCall
    split at stepped
    · rename_i signalled
      simp only [Option.some.injEq] at stepped
      subst next
      obtain ⟨tokens, bound, ticketBound, values, landed⟩ :=
        readSide.waiting tid offset before ticket inCall
      have noQueued : readValues client.conn.rdmaRemoteRegion client.remote client.sendQueue = [] := by
        rw [← List.length_eq_zero_iff, readValues_length]
        simp only [pipeline, List.count_append] at tokens
        omega
      have only : ∀ other, ((setThread client tid (.readCopy offset before ticket)).threads
          other).reading = true → other = tid := by
        intro other busy
        rw [setThread_threads] at busy
        split at busy
        · assumption
        · exact readSide.alone tid other (by rw [inCall]; rfl) busy
      refine ⟨?_, ?_, ⟨?_, ?_, ?_, ?_, readSide.counted, readSide.returned⟩⟩
      · apply Plumbing.setThread
        · exact { plumbing with }
        · rintro position (same | ⟨copied, same⟩) <;> simp at same
      · apply WriteSide.setThread
        · exact { writeSide with }
        · change (client.threads tid).writing = false
          rw [inCall]
          rfl
        · rfl
      · intro none
        have still := none tid
        rw [setThread_threads] at still
        simp [Call.reading] at still
      · intro other third busy thirdBusy
        rw [only other busy, only third thirdBusy]
      · intro other position earlier own calls
        change (RdmaPaging.setThread client tid _).threads other = _ at calls
        have isTid := only other (by rw [calls]; rfl)
        rw [setThread_threads, if_pos isTid] at calls
        simp at calls
      · intro other position earlier own calls
        change (RdmaPaging.setThread client tid _).threads other = _ at calls
        have isTid := only other (by rw [calls]; rfl)
        rw [setThread_threads, if_pos isTid] at calls
        simp only [Call.readCopy.injEq] at calls
        obtain ⟨rfl, rfl, rfl⟩ := calls
        refine ⟨?_, bound, ticketBound, landed noQueued⟩
        change client.readOps - 1 + (pipeline client).count .rdmaRead = 0
        omega
    · simp at stepped
  · simp at stepped

theorem readCopy_dataInv {start client next : Client size} {tid : Nat}
    (inv : DataInv start client)
    (stepped : step client (.readCopy tid) = some next) : DataInv start next := by
  obtain ⟨plumbing, writeSide, readSide⟩ := inv
  simp only [step, Action.party, stepApi] at stepped
  split at stepped
  · rename_i offset before ticket inCall
    split at stepped
    · simp only [Option.some.injEq] at stepped
      subst next
      obtain ⟨tokens, bound, ticketBound, landed⟩ :=
        readSide.copying tid offset before ticket inCall
      have completed : ticket < client.readsCompleted := by
        have counted := readSide.counted
        simp only [pipeline, List.map_append, List.count_append] at tokens counted
        omega
      have noReader : ∀ other, ((setThread client tid .idle).threads other).reading = false := by
        intro other
        rw [setThread_threads]
        split
        · rfl
        · rename_i notTid
          by_contra busy
          exact notTid (readSide.alone tid other (by rw [inCall]; rfl) (by simpa using busy))
      refine ⟨?_, ?_, ⟨?_, ?_, ?_, ?_, readSide.counted, ?_⟩⟩
      · apply Plumbing.setThread
        · exact { plumbing with }
        · rintro position (same | ⟨copied, same⟩) <;> simp at same
      · apply WriteSide.setThread
        · exact { writeSide with }
        · change (client.threads tid).writing = false
          rw [inCall]
          rfl
        · rfl
      · intro none
        exact tokens
      · intro other third busy
        have quiet := noReader other
        change ((RdmaPaging.setThread client tid .idle).threads other).reading = true at busy
        simp [quiet] at busy
      · intro other position earlier own calls
        have quiet := noReader other
        change (RdmaPaging.setThread client tid .idle).threads other = _ at calls
        simp [calls, Call.reading] at quiet
      · intro other position earlier own calls
        have quiet := noReader other
        change (RdmaPaging.setThread client tid .idle).threads other = _ at calls
        simp [calls, Call.reading] at quiet
      · intro result member
        change result ∈ client.returned ++ [_] at member
        rw [List.mem_append, List.mem_singleton] at member
        rcases member with old | new
        · exact readSide.returned result old
        · subst result
          exact ⟨bound, landed, by simpa using completed⟩
    · simp at stepped
  · simp at stepped

/-- A step of the NIC or of `ibv_poll_cq` that only moves requests along the pipeline. -/
theorem Plumbing.advance {start client next : Client size} (plumbing : Plumbing start client)
    (same : pipeline next = pipeline client)
    (reachable : RdmaPaging.usable next = RdmaPaging.usable client)
    (states : next.conn.sendState = client.conn.sendState ∧
      next.conn.recvState = client.conn.recvState ∧ next.conn.peerMr = client.conn.peerMr)
    (serverMr : next.serverMr = client.serverMr) (threads : next.threads = client.threads)
    (fits : ∀ wr ∈ next.sendQueue, accessOk start.serverMr wr = true)
    (successes : ∀ wc ∈ next.polled.toList ++ next.cq ++ next.executed, wc.status = .success) :
    Plumbing start next := by
  obtain ⟨sendState, recvState, peerMr⟩ := states
  refine ⟨by rw [reachable, plumbing.usable], by rw [sendState, plumbing.sendState],
    by rw [recvState, plumbing.recvState], by rw [peerMr, plumbing.peerMr],
    by rw [serverMr, plumbing.serverMr], plumbing.region, fits, ?_, successes, ?_⟩
  · rw [same]
    exact plumbing.kinds
  · rw [threads]
    exact plumbing.offsets

theorem pollCq_dataInv {start client next : Client size} (inv : DataInv start client)
    (stepped : step client .pollCq = some next) : DataInv start next := by
  obtain ⟨plumbing, writeSide, readSide⟩ := inv
  simp only [step, Action.party, stepPoller] at stepped
  split at stepped
  · rename_i wc rest empty queue
    simp only [Option.some.injEq] at stepped
    have same : pipeline next = pipeline client := by
      rw [← stepped]
      exact pollCq_pipeline client wc rest empty queue
    subst next
    refine ⟨?_, ?_, ?_⟩
    · refine plumbing.advance same rfl ⟨rfl, rfl, rfl⟩ rfl rfl plumbing.fits ?_
      intro done member
      apply plumbing.successes done
      simpa [empty, queue] using member
    · exact writeSide.transfer rfl (by rw [same]) rfl rfl rfl
    · exact readSide.transfer [] rfl (by rw [same]) (by simp) rfl rfl rfl readSide.counted rfl
  · simp at stepped

theorem nicFetch_dataInv {start client next : Client size} {index : Nat}
    (inv : DataInv start client)
    (stepped : step client (.nicFetch index) = some next) : DataInv start next := by
  obtain ⟨plumbing, writeSide, readSide⟩ := inv
  simp only [step, Action.party, stepNic] at stepped
  split at stepped
  · simp at stepped
  · simp only [Option.some.injEq] at stepped
    have same : pipeline next = pipeline client := by
      rw [← stepped]
      exact nicFetch_pipeline client index
    subst next
    have opcodes := map_fetchAt (fun wr : SendWr size => wr.opcode.completion)
      client.conn.rdmaRemoteRegion (fun wr => by rw [fetch_opcode]) index client.sendQueue
    have accesses := map_fetchAt (accessOk start.serverMr) client.conn.rdmaRemoteRegion
      (fun wr => by simp only [accessOk, fetch_rkey, fetch_remoteAddr]) index client.sendQueue
    refine ⟨?_, ?_, ?_⟩
    · refine plumbing.advance same rfl ⟨rfl, rfl, rfl⟩ rfl rfl ?_ plumbing.successes
      intro wr member
      have listed : accessOk start.serverMr wr ∈
          (fetchAt client.conn.rdmaRemoteRegion index client.sendQueue).map
            (accessOk start.serverMr) := List.mem_map_of_mem member
      rw [accesses, List.mem_map] at listed
      obtain ⟨queued, old, equal⟩ := listed
      rw [← equal]
      exact plumbing.fits queued old
    · exact writeSide.transfer rfl (by rw [same]) rfl (settle_fetchAt _ _ _ _) rfl
    · refine readSide.transfer [] rfl (by rw [same]) (by simp) rfl (readValues_fetchAt _ _ _ _) rfl
        ?_ rfl
      simp only [opcodes]
      exact readSide.counted

theorem nicComplete_dataInv {start client next : Client size} (inv : DataInv start client)
    (stepped : step client .nicComplete = some next) : DataInv start next := by
  obtain ⟨plumbing, writeSide, readSide⟩ := inv
  simp only [step, Action.party, stepNic] at stepped
  split at stepped
  · simp at stepped
  · split at stepped
    · simp at stepped
    · rename_i wc rest executed
      simp only [Option.some.injEq] at stepped
      have same : pipeline next = pipeline client := by
        rw [← stepped]
        exact nicComplete_pipeline client wc rest _ executed
      subst next
      refine ⟨?_, ?_, ?_⟩
      · refine plumbing.advance same rfl ⟨rfl, rfl, rfl⟩ rfl rfl plumbing.fits ?_
        intro done member
        apply plumbing.successes done
        simpa [executed] using member
      · exact writeSide.transfer rfl (by rw [same]) rfl rfl rfl
      · refine readSide.transfer [] rfl (by rw [same]) (by simp) rfl rfl rfl ?_ rfl
        have counted := readSide.counted
        rw [executed] at counted
        by_cases isRead : wc.opcode = .rdmaRead
        · simp [isRead] at counted ⊢
          omega
        · simpa [isRead] using counted

theorem nicExec_dataInv {start client next : Client size} (inv : DataInv start client)
    (stepped : step client .nicExec = some next) : DataInv start next := by
  obtain ⟨plumbing, writeSide, readSide⟩ := inv
  simp only [step, Action.party, stepNic] at stepped
  split at stepped
  · simp at stepped
  · split at stepped
    · simp at stepped
    · rename_i wr rest queue
      simp only [Option.some.injEq] at stepped
      have same : pipeline next = pipeline client := by
        rw [← stepped]
        exact executeHead_pipeline client wr rest queue
      have fits := plumbing.fits wr (by simp [queue])
      rw [← plumbing.serverMr] at fits
      have restFits : ∀ queued ∈ rest, accessOk start.serverMr queued = true := by
        intro queued member
        exact plumbing.fits queued (by simp [queue, member])
      have isWriteOrRead := plumbing.kinds wr.opcode.completion (by simp [pipeline, queue])
      have successes : ∀ opcode, ∀ done ∈ client.polled.toList ++ client.cq ++
          (client.executed ++ [⟨opcode, .success⟩]), done.status = .success := by
        intro opcode done member
        rw [← List.append_assoc, List.mem_append, List.mem_singleton] at member
        rcases member with old | new
        · exact plumbing.successes done old
        · rw [new]
      have counted := readSide.counted
      rw [queue] at counted
      cases opcode : wr.opcode with
      | send => simp [opcode] at isWriteOrRead
      | rdmaWrite =>
          simp only [executeHead, opcode, fits, if_true] at stepped
          subst next
          have applied : settle client.conn.rdmaRemoteRegion
              (wr.effect client.conn.rdmaRemoteRegion client.remote) rest =
              settle client.conn.rdmaRemoteRegion client.remote client.sendQueue := by
            rw [queue]
            rfl
          refine ⟨?_, ?_, ?_⟩
          · exact plumbing.advance same rfl ⟨rfl, rfl, rfl⟩ rfl rfl restFits (successes _)
          · exact writeSide.transfer rfl (by rw [same]) rfl applied rfl
          · refine readSide.transfer [] rfl (by rw [same]) (by simp) rfl ?_ rfl ?_ rfl
            · rw [queue]
              simp [readValues, opcode]
            · simpa [opcode] using counted
      | rdmaRead =>
          simp only [executeHead, opcode, fits, if_true] at stepped
          subst next
          have values : readValues client.conn.rdmaRemoteRegion client.remote client.sendQueue =
              bytesAt client.remote wr.remoteAddr ::
                readValues client.conn.rdmaRemoteRegion client.remote rest := by
            rw [queue]
            simp [readValues, opcode, SendWr.effect]
          refine ⟨?_, ?_, ⟨?_, readSide.alone, ?_, ?_, ?_, readSide.returned⟩⟩
          · exact plumbing.advance same rfl ⟨rfl, rfl, rfl⟩ rfl rfl restFits (successes _)
          · refine writeSide.transfer rfl (by rw [same]) rfl ?_ rfl
            rw [queue]
            simp [settle, SendWr.effect, opcode]
          · rw [same]
            exact readSide.idle
          · intro tid offset before ticket calls
            obtain ⟨tokens, bound, ticketBound, found, _⟩ :=
              readSide.waiting tid offset before ticket calls
            rw [values] at found
            rw [same]
            refine ⟨tokens, bound, ticketBound, ?_, ?_⟩
            · intro value member
              exact found value (by simp [member])
            · intro _
              exact found _ (by simp)
          · intro tid offset before ticket calls
            obtain ⟨tokens, _⟩ := readSide.copying tid offset before ticket calls
            simp [pipeline, queue, opcode] at tokens
          · simpa [opcode] using counted

theorem onCompletion_dataPath {client : Client size} {wc : IbvWc}
    (sendState : client.conn.sendState = .ssInit) (recvState : client.conn.recvState = .rsMrRecv)
    (success : wc.status = .success) :
    (wc.opcode = .rdmaRead → onCompletion wc client =
      some { client with readOps := client.readOps + 1 }) ∧
    (wc.opcode = .rdmaWrite → onCompletion wc client =
      some { client with writeOps := client.writeOps + 1 }) := by
  constructor <;> intro opcode <;>
    simp [onCompletion, success, opcode, onSend, sendState, recvState, finishCompletion]

theorem handleWc_dataInv {start client next : Client size} (inv : DataInv start client)
    (stepped : step client .handleWc = some next) : DataInv start next := by
  obtain ⟨plumbing, writeSide, readSide⟩ := inv
  simp only [step, Action.party, stepPoller] at stepped
  split at stepped
  · rename_i wc polled
    have live : client.freed = false := by
      have usable := plumbing.usable
      simp only [RdmaPaging.usable, Bool.and_eq_true, Bool.not_eq_true'] at usable
      exact usable.2
    simp only [live, Bool.false_eq_true, if_false] at stepped
    have success := plumbing.successes wc (by simp [polled])
    have shorter := polled_pipeline client wc polled
    have kind := plumbing.kinds wc.opcode (by simp [shorter])
    obtain ⟨reads, writes⟩ := onCompletion_dataPath plumbing.sendState plumbing.recvState success
    have oldSuccesses : ∀ done ∈ (none : Option IbvWc).toList ++ client.cq ++ client.executed,
        done.status = .success := by
      intro done member
      apply plumbing.successes done
      simp at member ⊢
      tauto
    have oldKinds : ∀ opcode ∈ pipeline { client with polled := none },
        opcode = .rdmaRead ∨ opcode = .rdmaWrite := by
      intro opcode member
      exact plumbing.kinds opcode (by simp [shorter, member])
    rcases kind with isRead | isWrite
    · rw [reads isRead] at stepped
      simp only [Option.some.injEq] at stepped
      subst next
      refine ⟨⟨plumbing.usable, plumbing.sendState, plumbing.recvState, plumbing.peerMr,
        plumbing.serverMr, plumbing.region, plumbing.fits, oldKinds, oldSuccesses,
        plumbing.offsets⟩, ?_, ?_⟩
      · refine writeSide.transfer rfl ?_ rfl rfl rfl
        rw [shorter, isRead]
        simp [pipeline]
      · refine readSide.transfer [] rfl ?_ (by simp) rfl rfl rfl readSide.counted rfl
        rw [shorter, isRead]
        simp [pipeline]
        omega
    · rw [writes isWrite] at stepped
      simp only [Option.some.injEq] at stepped
      subst next
      refine ⟨⟨plumbing.usable, plumbing.sendState, plumbing.recvState, plumbing.peerMr,
        plumbing.serverMr, plumbing.region, plumbing.fits, oldKinds, oldSuccesses,
        plumbing.offsets⟩, ?_, ?_⟩
      · refine writeSide.transfer rfl ?_ rfl rfl rfl
        rw [shorter, isWrite]
        simp [pipeline]
        omega
      · refine readSide.transfer [] rfl ?_ (by simp) rfl rfl rfl readSide.counted rfl
        rw [shorter, isWrite]
        simp [pipeline]
  · simp at stepped

theorem step_dataInv {start client next : Client size} {action : Action size}
    (inv : DataInv start client) (allowed : dataGuard client action)
    (stepped : step client action = some next) : DataInv start next := by
  cases action with
  | writeWait tid offset => exact writeWait_dataInv inv allowed stepped
  | writeCopy tid bytes => exact writeCopy_dataInv inv stepped
  | writePost tid => exact writePost_dataInv inv stepped
  | readPost tid offset => exact readPost_dataInv inv allowed stepped
  | readWait tid => exact readWait_dataInv inv stepped
  | readCopy tid => exact readCopy_dataInv inv stepped
  | pollCq => exact pollCq_dataInv inv stepped
  | handleWc => exact handleWc_dataInv inv stepped
  | nicFetch index => exact nicFetch_dataInv inv stepped
  | nicExec => exact nicExec_dataInv inv stepped
  | nicComplete => exact nicComplete_dataInv inv stepped
  | _ => exact allowed.elim

theorem reaches_dataInv {start client : Client size} (ready : Ready start)
    (reached : Machine.Reaches step dataGuard start client) : DataInv start client :=
  reached.invariant (DataInv start) ready.dataInv fun _ _ _ inv allowed stepped =>
    step_dataInv inv allowed stepped

/-- WRITEs that are posted and not completed. -/
def outstandingWrites (client : Client size) : Nat :=
  (client.executed.map IbvWc.opcode ++
    client.sendQueue.map fun wr => wr.opcode.completion).count .rdmaWrite

theorem outstandingWrites_le (client : Client size) :
    outstandingWrites client ≤ (pipeline client).count .rdmaWrite := by
  simp only [outstandingWrites, pipeline, List.map_append, List.count_append]
  omega

/-- While a WRITE is outstanding nobody is at the copy into the staging buffer. -/
theorem staging_kept {start client next : Client size} {action : Action size}
    (inv : DataInv start client) (allowed : dataGuard client action)
    (stepped : step client action = some next) (outstanding : 0 < outstandingWrites client) :
    next.conn.rdmaRemoteRegion = client.conn.rdmaRemoteRegion := by
  have inPipeline := outstandingWrites_le client
  cases action with
  | writeCopy tid bytes =>
      simp only [step, Action.party, stepApi] at stepped
      split at stepped
      · rename_i offset inCall
        have noToken := (inv.writeSide.writer tid (by simp [inCall, Call.writing])).1
        omega
      · simp at stepped
  | writeWait tid offset | writePost tid | readPost tid offset | readWait tid | readCopy tid =>
      simp only [step, Action.party, stepApi] at stepped
      split at stepped
      · split at stepped
        · simp only [Option.some.injEq] at stepped
          rw [← stepped]
          rfl
        · simp at stepped
      · simp at stepped
  | pollCq =>
      simp only [step, Action.party, stepPoller] at stepped
      split at stepped
      · simp only [Option.some.injEq] at stepped
        rw [← stepped]
      · simp at stepped
  | handleWc =>
      simp only [step, Action.party, stepPoller] at stepped
      split at stepped
      · split at stepped
        · simp only [Option.some.injEq] at stepped
          rw [← stepped]
        · split at stepped
          · rename_i done completed
            simp only [Option.some.injEq] at stepped
            rw [← stepped]
            exact (onCompletion_same completed).rdmaRemoteRegion
          · simp at stepped
      · simp at stepped
  | nicFetch index | nicComplete =>
      simp only [step, Action.party, stepNic] at stepped
      split at stepped
      · simp at stepped
      · first
        | split at stepped
          · simp at stepped
          · simp only [Option.some.injEq] at stepped
            rw [← stepped]
        | simp only [Option.some.injEq] at stepped
          rw [← stepped]
  | nicExec =>
      simp only [step, Action.party, stepNic] at stepped
      split at stepped
      · simp at stepped
      · split at stepped
        · simp at stepped
        · simp only [Option.some.injEq] at stepped
          rw [← stepped]
          unfold executeHead
          split
          · rfl
          · split <;> rfl
          · split <;> rfl
  | _ => exact allowed.elim

/-- Every read returns the bytes that the writes posted before it leave at its offset,
each write with the bytes its own call copied. -/
theorem reads_see_posted_writes {start client : Client size} (ready : Ready start)
    (reached : Machine.Reaches step dataGuard start client) :
    outstandingWrites client ≤ 1 ∧
    (∀ action next, dataGuard client action → step client action = some next →
      0 < outstandingWrites client →
        next.conn.rdmaRemoteRegion = client.conn.rdmaRemoteRegion) ∧
    ∀ result ∈ client.returned,
      result.bytes = bytesAt
        (remoteAfter start.serverMr.addr start.remote (client.posted.take result.before))
        (start.serverMr.addr + result.offset) := by
  have inv := reaches_dataInv ready reached
  refine ⟨?_, ?_, ?_⟩
  · have bound := outstandingWrites_le client
    have tokens := inv.writeSide.tokens
    omega
  · intro action next allowed stepped outstanding
    exact staging_kept inv allowed stepped outstanding
  · intro result member
    exact (inv.readSide.returned result member).2.1

/-- A connection just after `rdma_init`: the server's MR is known and one receive is
posted. The two regions hold whatever `malloc` left in them. -/
def readyClient (serverMr : IbvMr) (remote : Nat → UInt8) (landing staging : Buf size) :
    Client size :=
  { rdmaInitStart
      { connected := true
        peerMr := serverMr
        recvMsg := ⟨.msgMr, serverMr⟩
        sendMsg := ⟨.msgMr, serverMr⟩
        rdmaLocalRegion := landing
        rdmaRemoteRegion := staging
        sendState := .ssInit
        recvState := .rsMrRecv }
      serverMr remote with
    connContext := true
    eventThread := .running
    writeOps := 1
    initReturned := true
    recvPosted := 1
    serverUp := true
    serverMrSent := true
    handled := [.recv] }

theorem readyClient_ready (serverMr : IbvMr) (remote : Nat → UInt8) (landing staging : Buf size)
    (region : serverMr.addr + serverMr.length < 2 ^ 64) :
    Ready (readyClient serverMr remote landing staging) := by
  refine ⟨rfl, rfl, rfl, rfl, region, rfl, rfl, ?_, rfl, rfl, rfl, rfl⟩
  intro tid
  rfl

def smallMr : IbvMr := ⟨4096, 2, 7⟩

def smallClient : Client 1 :=
  readyClient smallMr (fun _ => 0) (fun _ => 0) (fun _ => 0)

/-- Write 9 at offset 1 and read it back, the READ posted behind the WRITE. -/
theorem reads_see_posted_writes_small : ∃ client : Client 1,
    Machine.Reaches step dataGuard smallClient client ∧
    client.returned.map (fun result => result.bytes 0) = [9] ∧
    outstandingWrites client ≤ 1 ∧
    ∀ result ∈ client.returned,
      result.bytes = bytesAt
        (remoteAfter smallMr.addr (fun _ => 0) (client.posted.take result.before))
        (smallMr.addr + result.offset) := by
  have ready : Ready smallClient := readyClient_ready _ _ _ _ (by decide)
  have noReader : ∀ tid, (Function.update (Function.update (Function.update smallClient.threads
      0 (.writeCopy 1)) 0 (.writePost 1 fun _ => 9)) 0 .idle tid).reading = false := by
    intro tid
    simp only [Function.update_apply]
    split <;> rfl
  have begun : Machine.Reaches step dataGuard smallClient smallClient := Machine.Reaches.refl
  have reached := begun
    |>.tail (show dataGuard _ (.writeWait 0 1) from Nat.le_refl 2) rfl
    |>.tail (show dataGuard _ (.writeCopy 0 fun _ => 9) from trivial) rfl
    |>.tail (show dataGuard _ (.writePost 0) from trivial) rfl
    |>.tail (show dataGuard _ (.readPost 1 1) from ⟨Nat.le_refl 2, noReader⟩) rfl
    |>.tail (show dataGuard _ .nicExec from trivial) rfl
    |>.tail (show dataGuard _ .nicComplete from trivial) rfl
    |>.tail (show dataGuard _ .nicExec from trivial) rfl
    |>.tail (show dataGuard _ .nicComplete from trivial) rfl
    |>.tail (show dataGuard _ .pollCq from trivial) rfl
    |>.tail (show dataGuard _ .handleWc from trivial) rfl
    |>.tail (show dataGuard _ .pollCq from trivial) rfl
    |>.tail (show dataGuard _ .handleWc from trivial) rfl
    |>.tail (show dataGuard _ (.readWait 1) from trivial) rfl
    |>.tail (show dataGuard _ (.readCopy 1) from trivial) rfl
  have whole := reads_see_posted_writes ready reached
  exact ⟨_, reached, rfl, whole.1, whole.2.2⟩

end RdmaPaging
