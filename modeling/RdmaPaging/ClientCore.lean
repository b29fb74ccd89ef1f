import Mathlib.Algebra.Group.Nat.Defs
import Mathlib.Logic.Function.Basic

/-!
The RDMA client of `rdma-common.c` and `rdma-client.c` as one state machine: the
threads that call the API, the connection-manager thread, the completion poller,
the queue pair with its NIC, and the server at the other end.

`RDMA_BUFFER_SIZE` is the parameter `size`. Time stamps are left out.
-/

namespace RdmaPaging

/-- A buffer of `RDMA_BUFFER_SIZE` bytes. -/
abbrev Buf (size : Nat) := Fin size → UInt8

/-- The fields of `struct ibv_mr` that the peers exchange and use. -/
structure IbvMr where
  addr : Nat
  length : Nat
  rkey : Nat
  deriving DecidableEq, Repr

inductive MessageType
  | msgMr
  | msgDone
  deriving DecidableEq, Repr

structure Message where
  type : MessageType
  mr : IbvMr
  deriving DecidableEq, Repr

inductive SendState
  | ssInit
  | ssDoneSent
  deriving DecidableEq, Repr

inductive RecvState
  | rsInit
  | rsMrRecv
  | rsDoneRecv
  deriving DecidableEq, Repr

structure Connection (size : Nat) where
  connected : Bool
  peerMr : IbvMr
  recvMsg : Message
  sendMsg : Message
  rdmaLocalRegion : Buf size
  rdmaRemoteRegion : Buf size
  sendState : SendState
  recvState : RecvState

inductive WcOpcode
  | send
  | rdmaWrite
  | rdmaRead
  | recv
  deriving DecidableEq, Repr

inductive WcStatus
  | success
  | remAccessErr
  deriving DecidableEq, Repr

/-- A work completion. Every request carries the connection as its `wr_id`. -/
structure IbvWc where
  opcode : WcOpcode
  status : WcStatus
  deriving DecidableEq, Repr

inductive WrOpcode
  | send
  | rdmaRead
  | rdmaWrite
  deriving DecidableEq, Repr

def WrOpcode.completion : WrOpcode → WcOpcode
  | .send => .send
  | .rdmaRead => .rdmaRead
  | .rdmaWrite => .rdmaWrite

/-- A posted send-queue request. `fetched` holds the bytes of a WRITE once the NIC
has read them from the source buffer. -/
structure SendWr (size : Nat) where
  opcode : WrOpcode
  remoteAddr : Nat
  rkey : Nat
  fetched : Option (Buf size)

/-- Where a thread stands in the API call it makes. A write remembers the bytes it
copied; a read remembers how many writes were posted before it and which READ of
the connection is its own. Neither note is read by any step. -/
inductive Call (size : Nat)
  | idle
  | writeCopy (offset : Nat)
  | writePost (offset : Nat) (bytes : Buf size)
  | readWait (offset before ticket : Nat)
  | readCopy (offset before ticket : Nat)
  | doneWait
  | doneReturned

@[grind =] def Call.writing {size : Nat} : Call size → Bool
  | .writeCopy _ => true
  | .writePost _ _ => true
  | _ => false

@[grind =] def Call.reading {size : Nat} : Call size → Bool
  | .readWait _ _ _ => true
  | .readCopy _ _ _ => true
  | _ => false

def Call.outside {size : Nat} : Call size → Bool
  | .idle => true
  | _ => false

/-- Progress of the thread that runs `create_rdma`. `established` is the point
between the two assignments that `on_connection` makes. -/
inductive EventThread
  | resolvingAddr
  | resolvingRoute
  | connecting
  | established
  | running
  | exited
  deriving DecidableEq, Repr

/-- A read call that has returned: its offset, the bytes left in the caller's
buffer, and whether its own READ had completed by then. -/
structure ReadReturn (size : Nat) where
  offset : Nat
  before : Nat
  bytes : Buf size
  completed : Bool

/-- The client process, its queue pair and completion queue (oldest entry first), and
the server. The fields from `posted` on are history that no step reads. -/
structure Client (size : Nat) where
  conn : Connection size
  connContext : Bool
  eventThread : EventThread
  freed : Bool
  readOps : Nat
  writeOps : Nat
  doneOps : Nat
  initWait : Nat
  initReturned : Bool
  doneCalled : Bool
  disconnects : Nat
  threads : Nat → Call size
  sendQueue : List (SendWr size)
  executed : List IbvWc
  recvPosted : Nat
  cq : List IbvWc
  polled : Option IbvWc
  serverUp : Bool
  serverMrSent : Bool
  serverGotDone : Bool
  serverDoneSent : Bool
  serverLeft : Bool
  inbound : List Message
  serverMr : IbvMr
  remote : Nat → UInt8
  posted : List (Nat × Buf size)
  readsPosted : Nat
  readsCompleted : Nat
  returned : List (ReadReturn size)
  handled : List WcOpcode
  usedFreed : Bool

/-- The bytes of a remote memory from `addr` on. -/
def bytesAt {size : Nat} (memory : Nat → UInt8) (addr : Nat) : Buf size :=
  fun index => memory (addr + index)

/-- Place a buffer in memory at `addr`. -/
def place {size : Nat} (memory : Nat → UInt8) (addr : Nat) (bytes : Buf size) : Nat → UInt8 :=
  fun position =>
    if bound : addr ≤ position ∧ position - addr < size then bytes ⟨position - addr, bound.2⟩
    else memory position

variable {size : Nat}

def postReceives (client : Client size) : Client size :=
  { client with recvPosted := client.recvPosted + 1 }

/-- The receive branch of `on_completion`. -/
def onRecv (client : Client size) : Client size :=
  if client.conn.recvState = .rsInit ∧ client.conn.recvMsg.type = .msgMr then
    let copied := { client with conn := { client.conn with peerMr := client.conn.recvMsg.mr } }
    let rearmed := postReceives copied
    let received := { rearmed with conn := { rearmed.conn with recvState := .rsMrRecv } }
    if received.conn.sendState = .ssInit ∧ received.conn.recvState = .rsMrRecv then
      { received with initWait := received.initWait + 1 }
    else received
  else if client.conn.recvState = .rsMrRecv then
    { client with conn := { client.conn with recvState := .rsDoneRecv } }
  else client

/-- The send branch of `on_completion`. -/
def onSend (opcode : WcOpcode) (client : Client size) : Client size :=
  if client.conn.sendState = .ssInit ∧ client.conn.recvState = .rsMrRecv then
    match opcode with
    | .rdmaRead => { client with readOps := client.readOps + 1 }
    | .send => { client with
        conn := { client.conn with sendState := .ssDoneSent }
        doneOps := client.doneOps + 1 }
    | .rdmaWrite => { client with writeOps := client.writeOps + 1 }
    | .recv => client
  else client

/-- `rdma_disconnect`, the last thing `on_completion` may do. -/
def finishCompletion (client : Client size) : Client size :=
  if client.conn.sendState = .ssDoneSent ∧ client.conn.recvState = .rsDoneRecv then
    { client with disconnects := client.disconnects + 1 }
  else client

/-- `on_completion`. A failed completion ends the process in `die`. -/
def onCompletion (wc : IbvWc) (client : Client size) : Option (Client size) :=
  match wc.status with
  | .remAccessErr => none
  | .success =>
      some (finishCompletion (if wc.opcode = .recv then onRecv client else onSend wc.opcode client))

/-- `build_connection`: fresh semaphores, a fresh connection, one posted receive. -/
def buildConnection (client : Client size) : Client size :=
  postReceives { client with
    readOps := 0
    doneOps := 0
    writeOps := 1
    conn := { client.conn with sendState := .ssInit, recvState := .rsInit, connected := false } }

def setThread (client : Client size) (tid : Nat) (call : Call size) : Client size :=
  { client with threads := Function.update client.threads tid call }

/-- The remote address and key of a READ or WRITE at `offset`. -/
def requestAt (client : Client size) (opcode : WrOpcode) (offset : Nat) : SendWr size :=
  { opcode := opcode
    remoteAddr := (client.conn.peerMr.addr + offset) % 2 ^ 64
    rkey := client.conn.peerMr.rkey
    fetched := none }

def postSend (client : Client size) (wr : SendWr size) : Client size :=
  { client with sendQueue := client.sendQueue ++ [wr] }

/-- The server's NIC accepts a request that stays inside its registered region. -/
def accessOk (mr : IbvMr) (wr : SendWr size) : Bool :=
  wr.rkey = mr.rkey && mr.addr ≤ wr.remoteAddr && wr.remoteAddr + size ≤ mr.addr + mr.length

/-- What an executed request does to the server's memory. -/
def SendWr.effect (wr : SendWr size) (staging : Buf size) (remote : Nat → UInt8) : Nat → UInt8 :=
  match wr.opcode with
  | .rdmaWrite => place remote wr.remoteAddr (wr.fetched.getD staging)
  | .rdmaRead => remote
  | .send => remote

@[grind =] def SendWr.fetch (wr : SendWr size) (staging : Buf size) : SendWr size :=
  match wr.opcode with
  | .rdmaWrite => { wr with fetched := some (wr.fetched.getD staging) }
  | .rdmaRead => wr
  | .send => wr

/-- The NIC may read the source of any posted WRITE ahead of executing it. -/
@[grind =] def fetchAt (staging : Buf size) : Nat → List (SendWr size) → List (SendWr size)
  | _, [] => []
  | 0, wr :: rest => wr.fetch staging :: rest
  | index + 1, wr :: rest => wr :: fetchAt staging index rest

/-- Execute the oldest request that is not yet executed. -/
def executeHead (client : Client size) (wr : SendWr size) (rest : List (SendWr size)) :
    Client size :=
  match wr.opcode with
  | .send =>
      { client with
        sendQueue := rest
        executed := client.executed ++ [⟨.send, .success⟩]
        serverGotDone := true }
  | .rdmaRead =>
      if accessOk client.serverMr wr then
        { client with
          sendQueue := rest
          executed := client.executed ++ [⟨.rdmaRead, .success⟩]
          conn := { client.conn with rdmaLocalRegion := bytesAt client.remote wr.remoteAddr } }
      else
        { client with
          sendQueue := rest
          executed := client.executed ++ [⟨.rdmaRead, .remAccessErr⟩] }
  | .rdmaWrite =>
      if accessOk client.serverMr wr then
        { client with
          sendQueue := rest
          executed := client.executed ++ [⟨.rdmaWrite, .success⟩]
          remote := wr.effect client.conn.rdmaRemoteRegion client.remote }
      else
        { client with
          sendQueue := rest
          executed := client.executed ++ [⟨.rdmaWrite, .remAccessErr⟩] }

/-- The steps of `rdma_init`, of the API calls, of `create_rdma`, of `poll_cq`, of the
NIC and of the server. -/
inductive Action (size : Nat)
  | initReturn
  | writeWait (tid offset : Nat)
  | writeCopy (tid : Nat) (bytes : Buf size)
  | writePost (tid : Nat)
  | readPost (tid offset : Nat)
  | readWait (tid : Nat)
  | readCopy (tid : Nat)
  | donePost (tid : Nat)
  | doneWait (tid : Nat)
  | addrResolved
  | routeResolved
  | onConnect
  | setContext
  | onDisconnect
  | pollCq
  | handleWc
  | nicFetch (index : Nat)
  | nicExec
  | nicComplete
  | nicDeliver
  | serverAccept
  | serverSendMr
  | serverSendDone
  | serverDisconnect

/-- The API dereferences `conn_context`: through a null or a freed connection the
process has no next state. -/
def usable (client : Client size) : Bool := client.connContext && !client.freed

@[grind =] def stepApi (client : Client size) : Action size → Option (Client size)
  | .writeWait tid offset =>
      match client.threads tid with
      | .idle =>
          if usable client ∧ 0 < client.writeOps then
            some (setThread { client with writeOps := client.writeOps - 1 } tid (.writeCopy offset))
          else none
      | _ => none
  | .writeCopy tid bytes =>
      match client.threads tid with
      | .writeCopy offset =>
          if usable client then
            some (setThread
              { client with conn := { client.conn with rdmaRemoteRegion := bytes } }
              tid (.writePost offset bytes))
          else none
      | _ => none
  | .writePost tid =>
      match client.threads tid with
      | .writePost offset bytes =>
          if usable client then
            some (setThread
              { postSend client (requestAt client .rdmaWrite offset) with
                posted := client.posted ++ [(offset, bytes)] }
              tid .idle)
          else none
      | _ => none
  | .readPost tid offset =>
      match client.threads tid with
      | .idle =>
          if usable client then
            some (setThread
              { postSend client (requestAt client .rdmaRead offset) with
                readsPosted := client.readsPosted + 1 }
              tid (.readWait offset client.posted.length client.readsPosted))
          else none
      | _ => none
  | .readWait tid =>
      match client.threads tid with
      | .readWait offset before ticket =>
          if 0 < client.readOps then
            some (setThread { client with readOps := client.readOps - 1 } tid
              (.readCopy offset before ticket))
          else none
      | _ => none
  | .readCopy tid =>
      match client.threads tid with
      | .readCopy offset before ticket =>
          if usable client then
            some (setThread
              { client with
                returned := client.returned ++
                  [⟨offset, before, client.conn.rdmaLocalRegion,
                    decide (ticket < client.readsCompleted)⟩] }
              tid .idle)
          else none
      | _ => none
  | .donePost tid =>
      match client.threads tid with
      | .idle =>
          if usable client ∧ client.conn.connected then
            some (setThread
              { postSend
                  { client with
                    conn := { client.conn with
                      sendMsg := { client.conn.sendMsg with type := .msgDone } } }
                  { opcode := .send, remoteAddr := 0, rkey := 0, fetched := none } with
                doneCalled := true }
              tid .doneWait)
          else none
      | _ => none
  | .doneWait tid =>
      match client.threads tid with
      | .doneWait =>
          if 0 < client.doneOps then
            some (setThread { client with doneOps := client.doneOps - 1 } tid .doneReturned)
          else none
      | _ => none
  | _ => none

@[grind =] def stepEventThread (client : Client size) : Action size → Option (Client size)
  | .addrResolved =>
      if client.eventThread = .resolvingAddr then
        some { buildConnection client with eventThread := .resolvingRoute }
      else none
  | .routeResolved =>
      if client.eventThread = .resolvingRoute then
        some { client with eventThread := .connecting }
      else none
  | .onConnect =>
      if client.eventThread = .connecting ∧ client.serverUp then
        some { client with
          eventThread := .established
          conn := { client.conn with connected := true } }
      else none
  | .setContext =>
      if client.eventThread = .established then
        some { client with eventThread := .running, connContext := true }
      else none
  | .onDisconnect =>
      if client.eventThread = .running ∧ (client.serverLeft ∨ 0 < client.disconnects) then
        some { client with eventThread := .exited, freed := true }
      else none
  | _ => none

/-- The poller. Running `on_completion` on a freed connection is recorded and has
no other effect in the model. -/
@[grind =] def stepPoller (client : Client size) : Action size → Option (Client size)
  | .pollCq =>
      match client.polled, client.cq with
      | none, wc :: rest => some { client with polled := some wc, cq := rest }
      | _, _ => none
  | .handleWc =>
      match client.polled with
      | some wc =>
          if client.freed then some { client with polled := none, usedFreed := true }
          else
            match onCompletion wc client with
            | some done => some { done with
                polled := none
                handled := client.handled ++ [wc.opcode] }
            | none => none
      | none => none
  | _ => none

/-- The NIC stops working for the connection when its queue pair is destroyed. -/
@[grind =] def stepNic (client : Client size) : Action size → Option (Client size)
  | .nicFetch index =>
      if client.freed then none
      else some { client with
        sendQueue := fetchAt client.conn.rdmaRemoteRegion index client.sendQueue }
  | .nicExec =>
      if client.freed then none
      else
        match client.sendQueue with
        | [] => none
        | wr :: rest => some (executeHead client wr rest)
  | .nicComplete =>
      if client.freed then none
      else
        match client.executed with
        | [] => none
        | wc :: rest => some { client with
            executed := rest
            cq := client.cq ++ [wc]
            readsCompleted :=
              if wc.opcode = .rdmaRead then client.readsCompleted + 1 else client.readsCompleted }
  | .nicDeliver =>
      if client.freed ∨ client.recvPosted = 0 then none
      else
        match client.inbound with
        | [] => none
        | message :: rest => some { client with
            inbound := rest
            recvPosted := client.recvPosted - 1
            conn := { client.conn with recvMsg := message }
            cq := client.cq ++ [⟨.recv, .success⟩] }
  | _ => none

/-- What the server does is taken from the messages the client expects: its MR once
the connection is up, one DONE after that, and a disconnect when DONE went both ways. -/
@[grind =] def stepServer (client : Client size) : Action size → Option (Client size)
  | .serverAccept =>
      if client.eventThread = .connecting ∧ ¬ client.serverUp then
        some { client with serverUp := true }
      else none
  | .serverSendMr =>
      if client.serverUp ∧ ¬ client.serverMrSent then
        some { client with
          serverMrSent := true
          inbound := client.inbound ++ [⟨.msgMr, client.serverMr⟩] }
      else none
  | .serverSendDone =>
      if client.serverMrSent ∧ ¬ client.serverDoneSent then
        some { client with
          serverDoneSent := true
          inbound := client.inbound ++ [⟨.msgDone, client.serverMr⟩] }
      else none
  | .serverDisconnect =>
      if client.serverDoneSent ∧ client.serverGotDone then
        some { client with serverLeft := true }
      else none
  | _ => none

@[grind =] def stepInit (client : Client size) : Action size → Option (Client size)
  | .initReturn =>
      if 0 < client.initWait ∧ ¬ client.initReturned then
        some { client with initWait := client.initWait - 1, initReturned := true }
      else none
  | _ => none

inductive Party
  | init
  | api
  | eventThread
  | poller
  | nic
  | server
  deriving DecidableEq

@[grind =] def Action.party : Action size → Party
  | .initReturn => .init
  | .writeWait _ _ | .writeCopy _ _ | .writePost _ => .api
  | .readPost _ _ | .readWait _ | .readCopy _ => .api
  | .donePost _ | .doneWait _ => .api
  | .addrResolved | .routeResolved | .onConnect | .setContext | .onDisconnect => .eventThread
  | .pollCq | .handleWc => .poller
  | .nicFetch _ | .nicExec | .nicComplete | .nicDeliver => .nic
  | .serverAccept | .serverSendMr | .serverSendDone | .serverDisconnect => .server

/-- One step of the client, its NIC or its server. -/
@[grind =] def step (client : Client size) (action : Action size) : Option (Client size) :=
  match action.party with
  | .init => stepInit client action
  | .api => stepApi client action
  | .eventThread => stepEventThread client action
  | .poller => stepPoller client action
  | .nic => stepNic client action
  | .server => stepServer client action

/-- The state in which `rdma_init` has started `create_rdma` and waits. The memory of
the connection is whatever `malloc` will return. -/
def rdmaInitStart (conn : Connection size) (serverMr : IbvMr) (remote : Nat → UInt8) :
    Client size where
  conn := conn
  connContext := false
  eventThread := .resolvingAddr
  freed := false
  readOps := 0
  writeOps := 0
  doneOps := 0
  initWait := 0
  initReturned := false
  doneCalled := false
  disconnects := 0
  threads := fun _ => .idle
  sendQueue := []
  executed := []
  recvPosted := 0
  cq := []
  polled := none
  serverUp := false
  serverMrSent := false
  serverGotDone := false
  serverDoneSent := false
  serverLeft := false
  inbound := []
  serverMr := serverMr
  remote := remote
  posted := []
  readsPosted := 0
  readsCompleted := 0
  returned := []
  handled := []
  usedFreed := false

/-- The send-queue and receive requests that are posted or completed but not yet
handled by the poller, as the opcodes of their completions, oldest first. -/
@[grind =] def pipeline (client : Client size) : List WcOpcode :=
  (client.polled.toList ++ client.cq ++ client.executed).map IbvWc.opcode ++
    client.sendQueue.map fun wr => wr.opcode.completion

end RdmaPaging
