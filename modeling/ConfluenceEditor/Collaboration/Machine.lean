/-
The whole collaboration: one document's server process with its store, and any number of clients.

A client talks over one connection at a time. The server keeps two queues of frames for each
connection, and sends from the operations' queue first. An event is one synchronous stretch of the
source: a frame is handled, a handler continues after a query, a job of a handshake's gate takes its
turn, a transaction lands, a socket opens or closes, the process dies and starts again. Frames that
are on their way may arrive after the server is gone, and requests may be handled after their client
is gone.
-/

import ConfluenceEditor.Client.Handshake
import ConfluenceEditor.Library.Run
import ConfluenceEditor.Server.Durability
import ConfluenceEditor.Server.Handshake
import ConfluenceEditor.Server.LogRows
import ConfluenceEditor.Server.Sweep

namespace ConfluenceEditor

open Engine Coordinator

/-- The parameters: the length of an encoded operation, the limits of the server's sweep, and which
code points continue a grapheme cluster. -/
structure Settings where
  opBytes : Operation → Nat
  offlineWindow : OfflineWindowConfig
  isClusterContinuing : Nat → Bool

/-- A frame on its way to a client. -/
inductive ServerFrame where
  | control (msg : ControlMessage)
  | ops (msg : OpsFrameMessage)
  deriving DecidableEq, Repr

/-- Where the handler of a HELLO is suspended: before the query for the catch-up, before the query
for the reported stamps, and after it. -/
inductive HandshakeStage where
  | range (fromSeq toSeq : Nat) (unacked : List Identifier)
  | stamps (unacked : List Identifier)
  | found (unacked durablyExisting : List Identifier)
  deriving DecidableEq, Repr

/-- One WebSocket connection of `client`, with the generation of its handshake. `toServer` are the
operations of the frames that the server has not handled yet. -/
structure Connection where
  client : Nat
  generation : Nat
  opened : Bool
  hello : Option HelloMessage
  toServer : List (List Operation)
  replicaId : Option Nat
  isOpen : Bool
  handshake : Option HandshakeStage
  ackBatch : List (Identifier × Nat)
  opsQueue : List OpsFrameMessage
  controlQueue : List ControlMessage
  wire : List ServerFrame

namespace Connection

def new (client generation : Nat) : Connection :=
  ⟨client, generation, false, none, [], none, false, none, [], [], [], []⟩

/-- A closed queue takes nothing. -/
def enqueueOps (c : Connection) (msg : OpsFrameMessage) : Connection :=
  if c.isOpen then { c with opsQueue := c.opsQueue ++ [msg] } else c

def enqueueControl (c : Connection) (msgs : List ControlMessage) : Connection :=
  if c.isOpen then { c with controlQueue := c.controlQueue ++ msgs } else c

def addAcks (c : Connection) (acks : List (Identifier × Nat)) : Connection :=
  if c.isOpen then { c with ackBatch := c.ackBatch ++ acks } else c

/-- The next frame to send: operations first. -/
def nextFrame (c : Connection) : Option (ServerFrame × Connection) :=
  match c.opsQueue, c.controlQueue with
  | msg :: opsQueue, _ => some (.ops msg, { c with opsQueue })
  | [], msg :: controlQueue => some (.control msg, { c with controlQueue })
  | [], [] => none

/-- The server has noticed that the socket is gone. -/
def leave (c : Connection) : Connection :=
  { c with isOpen := false, ackBatch := [], opsQueue := [], controlQueue := [] }

/-- The server's process is gone; what it sent may still arrive. -/
def crash (c : Connection) : Connection :=
  { c.leave with hello := none, toServer := [], replicaId := none, handshake := none }

end Connection

/-- Why a stamp left a client's queue. -/
inductive DropCause where
  | opAck
  | alreadyHave
  deriving DecidableEq, Repr

/-- `sockets` are the clients' current connections. The last two fields record what happened: the
live engine that each listing was computed from, with the client and the generation of its
handshake, and every stamp that left a client's queue. -/
structure Collaboration where
  server : Server
  pendingFirstSeenAtMs : Identifier → Option Nat
  nextReplicaId : Nat
  connections : List Connection
  sockets : Nat → Option Nat
  clients : Nat → ConnectedClient
  listings : List (Nat × Nat × Engine)
  dropped : List (Nat × Nat × Identifier × DropCause)

inductive CollaborationEvent where
  /-- A client opens a socket, on demand or when the reconnect timer fires; the socket opens, is
  about to close, or is closed; the client goes offline. -/
  | connect (client nowMs : Nat)
  | reopen (client : Nat)
  | opened (k : Nat)
  | closing (client : Nat)
  | closed (client nowMs : Nat)
  | disconnect (client nowMs : Nat)
  | edit (client : Nat) (call : EditCall) (nowMs : Nat)
  | discardRejected (client : Nat)
  | deliver (k : Nat)
  | gate (client nowMs : Nat)
  /-- The server handles a HELLO and continues its handshake. -/
  | hello (k : Nat) (role : SessionRole)
  | handshake (k : Nat)
  /-- It handles a frame of operations, refused or not, and sends one of its own. -/
  | receive (k j : Nat) (refusal : Option (RejectReason × String)) (nowMs : Nat)
  | flushAcks (k : Nat)
  | drain (k : Nat)
  | leave (k : Nat)
  | permissionChanged (k : Nat) (role : Option SessionRole)
  | sweep (nowMs : Nat)
  | start (i : Nat)
  | land (i : Nat) (committedAtMs : Nat)
  | succeed (i : Nat)
  | fail (i : Nat)
  | capture
  | writeSnapshot (k : Nat)
  /-- The process dies and starts again; replica ids continue from what the sessions table has. -/
  | restart (nextReplicaId : Nat)
  deriving DecidableEq, Repr

/-- The events at a client. -/
def CollaborationEvent.atClient : CollaborationEvent → Bool
  | .connect .. | .reopen _ | .opened _ | .closing _ | .closed .. | .disconnect .. | .edit ..
  | .discardRejected _ | .deliver _ | .gate .. => true
  | _ => false

namespace Collaboration

def init (documentId : String) : Collaboration where
  server := Server.init documentId
  pendingFirstSeenAtMs _ := none
  nextReplicaId := 1
  connections := []
  sockets _ := none
  clients _ := .new
  listings := []
  dropped := []

def connection (s : Collaboration) (k : Nat) : Except String Connection :=
  match s.connections[k]? with
  | some conn => .ok conn
  | none => .error "no such connection"

def setConnection (s : Collaboration) (k : Nat) (conn : Connection) : Collaboration :=
  { s with connections := s.connections.set k conn }

/-- What a client transmitted goes into its current connection. -/
def setClient (s : Collaboration) (i : Nat) (c : ConnectedClient) : Collaboration :=
  let sent := match s.sockets i with
    | some k => s.connections.modify k fun conn =>
        { conn with toServer := conn.toServer ++ c.transmitted }
    | none => s.connections
  { s with
    connections := sent
    clients := Function.update s.clients i { c with transmitted := [] } }

/-- A new socket takes the place of the client's old one. -/
def openSocket (s : Collaboration) (i : Nat) (c : ConnectedClient) : Collaboration :=
  { s with
    connections := s.connections ++ [.new i (c.handshakeGeneration + 1)]
    sockets := Function.update s.sockets i (some s.connections.length)
    clients := Function.update s.clients i c }

/-- The client lets go of its socket. -/
def closeSocket (s : Collaboration) (i : Nat) (c : ConnectedClient) : Collaboration :=
  { s with
    sockets := Function.update s.sockets i none
    clients := Function.update s.clients i c }

/-! ### The clients -/

/-- The stamps that leave the queue by a frame of acknowledgements. -/
def ackedNow (c : ConnectedClient) : ServerFrame → List Identifier
  | .ops (.opAck acks) => (acks.map Prod.fst).filter fun id => id ∈ UnackedQueue.ids c.unacked
  | _ => []

/-- The stamps that leave the queue because ALREADY_HAVE lists them, when the next job of the gate
takes its turn. -/
def listedNow (c : ConnectedClient) : List Identifier :=
  match c.handshakeGate, c.engine with
  | (generation, .alreadyHave alreadyHave) :: _, some _ =>
      if generation = c.handshakeGeneration then
        c.helloUnackedIds.filter fun id => id ∈ UnackedQueue.ids c.unacked ∧ id ∈ alreadyHave
      else []
  | _, _ => []

def noteDropped (s : Collaboration) (i : Nat) (stamps : List Identifier) (cause : DropCause) : Collaboration :=
  { s with dropped :=
      s.dropped ++ stamps.map fun id => (i, (s.clients i).handshakeGeneration, id, cause) }

/-- A client handles a frame. -/
def handleFrame (c : ConnectedClient) : ServerFrame → Except String ConnectedClient
  | .control msg => c.handleControl msg
  | .ops msg => c.handleOpsMessage msg

/-- The first frame of a connection arrives; a client ignores a socket that it let go. -/
def deliver (s : Collaboration) (k : Nat) : Except String Collaboration := do
  let conn ← s.connection k
  match conn.wire with
  | [] => .error "nothing is on its way"
  | frame :: wire =>
      if !conn.opened then .error "the socket is not open yet"
      else
        let s := s.setConnection k { conn with wire }
        let c := s.clients conn.client
        if s.sockets conn.client = some k then do
          let c' ← handleFrame c frame
          .ok ((s.noteDropped conn.client (ackedNow c frame) .opAck).setClient conn.client c')
        else .ok s

/-! ### The server -/

/-- The open sessions with their replica ids. -/
def sessions (s : Collaboration) : List (Nat × Nat) :=
  s.connections.zipIdx.filterMap fun (conn, k) =>
    if conn.isOpen then conn.replicaId.map fun replicaId => (k, replicaId) else none

/-- Every open session but the origin gets the frame. -/
def relayTo (connections : List Connection) (relay : Relay) : List Connection :=
  connections.mapIdx fun k conn =>
    if k = relay.origin then conn else conn.enqueueOps (.ops relay.seq relay.ops)

def broadcast (s : Collaboration) (relays : List Relay) : Collaboration :=
  { s with connections := relays.foldl relayTo s.connections }

def onServer (s : Collaboration) (event : ServerEvent) : Except String Collaboration := do
  let server ← s.server.step event
  .ok { s with server }

/-- Admit a session: WELCOME, and the snapshot when there is no engine to catch up. -/
def handleHandshake (s : Collaboration) (k : Nat) (role : SessionRole) : Except String Collaboration := do
  let conn ← s.connection k
  match conn.hello with
  | none => .error "no HELLO"
  | some hello =>
      let replicaId := s.nextReplicaId
      let queue := s.server.coordinator.queue
      let syncMode := decideSyncMode hello queue.currentSeq
      let conn := { conn with
        hello := none
        replicaId := some replicaId
        isOpen := true
        handshake := some (if syncMode = SyncMode.CATCHUP then
            .range hello.lastServerSeq queue.lastCommittedSeq hello.unacked
          else .stamps hello.unacked) }
      let snapshot := if syncMode = SyncMode.SNAPSHOT then
          [ControlMessage.snapshot queue.currentSeq s.server.coordinator.engine.nodes]
        else []
      .ok ({ s with nextReplicaId := replicaId + 1 }.setConnection k
        (conn.enqueueControl (.welcome replicaId role syncMode :: snapshot)))

/-- The handler of a HELLO continues. -/
def continueHandshake (settings : Settings) (s : Collaboration) (k : Nat) : Except String Collaboration := do
  let conn ← s.connection k
  match conn.handshake with
  | none => .error "no handshake"
  | some (.range fromSeq toSeq unacked) =>
      let msgs := buildCatchupMessages settings.opBytes s.server.store fromSeq toSeq
      .ok (s.setConnection k
        ({ conn with handshake := some (.stamps unacked) }.enqueueControl msgs))
  | some (.stamps unacked) =>
      if unacked = [] then
        .ok (s.setConnection k ({ conn with handshake := none }.enqueueControl [.alreadyHave []]))
      else
        .ok (s.setConnection k { conn with
          handshake := some (.found unacked (s.server.store.findExistingStamps unacked)) })
  | some (.found unacked durablyExisting) =>
      let e := s.server.coordinator.engine
      let s := { s with listings := s.listings ++ [(conn.client, conn.generation, e)] }
      .ok (s.setConnection k ({ conn with handshake := none }.enqueueControl
        [.alreadyHave (alreadyHaveStamps e unacked durablyExisting)]))

/-- Handle frame `j` of a session. -/
def receive (s : Collaboration) (k j : Nat) (refusal : Option (RejectReason × String)) (nowMs : Nat) :
    Except String Collaboration := do
  let conn ← s.connection k
  match conn.replicaId, conn.toServer[j]? with
  | some replicaId, some ops =>
      let conn := { conn with toServer := conn.toServer.eraseIdx j }
      let reject (reason : RejectReason) (detail : String) : Collaboration :=
        s.setConnection k
          (conn.enqueueOps (.opReject (ops.map fun op => (op.id, reason)) detail))
      match ops, refusal with
      | [], _ => .ok (s.setConnection k conn)
      | _, some (reason, detail) => .ok (reject reason detail)
      | first :: _, none =>
          if first.id.r ≠ replicaId then
            .ok (reject .IDENTITY_MISMATCH ("stamp.r (" ++ toString first.id.r ++
              ") does not match this session's replica_id (" ++ toString replicaId ++ ")"))
          else do
            let (coordinator, relays) ←
              processIncomingOperation s.server.coordinator k ops nowMs
            let server := { s.server with coordinator, received := s.server.received ++ ops }
            .ok ({ s.setConnection k conn with server }.broadcast relays)
  | _, _ => .error "no such frame, or nobody to handle it"

/-- The acknowledgements of commit `i`, with its session. -/
def acksOf (q : CommitQueue) (i : Nat) : Nat × List (Identifier × Nat) :=
  match q.commits[i]? with
  | some c => (c.origin, (numberedFrom c.startSeq c.ops).map fun row => (row.2.id, row.1))
  | none => (0, [])

/-- The sweep of the offline window; the sessions are told what was evicted. -/
def sweep (settings : Settings) (s : Collaboration) (nowMs : Nat) : Collaboration :=
  let (state, _, rejects) :=
    SweepState.runOneDocument ⟨s.server.coordinator, s.pendingFirstSeenAtMs⟩ s.sessions
      settings.offlineWindow nowMs
  { s with
    server := { s.server with coordinator := state.coordinator }
    pendingFirstSeenAtMs := state.pendingFirstSeenAtMs
    connections := rejects.foldl (fun connections reject =>
      connections.modify reject.session fun conn => conn.enqueueOps
        (.opReject (reject.rejectedIds.map fun id => (id, reject.reason)) reject.detail))
      s.connections }

def step (settings : Settings) (s : Collaboration) : CollaborationEvent → Except String Collaboration
  | .connect i nowMs => .ok (s.openSocket i ((s.clients i).connect nowMs))
  | .reopen i => .ok (s.openSocket i (s.clients i).openSocketNow)
  | .opened k => do
      let conn ← s.connection k
      if s.sockets conn.client = some k ∧ conn.opened = false then
        let (c, hello) := (s.clients conn.client).onOpen
        .ok ((s.setConnection k { conn with
          opened := true
          generation := c.handshakeGeneration
          hello := some hello }).setClient conn.client c)
      else .error "no such socket"
  | .closing i =>
      .ok { s with clients := Function.update s.clients i { s.clients i with ws := some .CLOSING } }
  | .closed i nowMs => .ok (s.closeSocket i ((s.clients i).onClose nowMs))
  | .disconnect i nowMs => .ok (s.closeSocket i ((s.clients i).disconnect nowMs))
  | .edit i call nowMs =>
      .ok (s.setClient i ((s.clients i).perform settings.isClusterContinuing nowMs call))
  | .discardRejected i => .ok (s.setClient i (s.clients i).discardRejected)
  | .deliver k => s.deliver k
  | .gate i nowMs => do
      let c := s.clients i
      let c' ← c.runGate nowMs
      .ok ((s.noteDropped i (listedNow c) .alreadyHave).setClient i c')
  | .hello k role => s.handleHandshake k role
  | .handshake k => s.continueHandshake settings k
  | .receive k j refusal nowMs => s.receive k j refusal nowMs
  | .flushAcks k => do
      let conn ← s.connection k
      .ok (s.setConnection k ({ conn with ackBatch := [] }.enqueueOps (.opAck conn.ackBatch)))
  | .drain k => do
      let conn ← s.connection k
      match conn.nextFrame with
      | some (frame, conn) => .ok (s.setConnection k { conn with wire := conn.wire ++ [frame] })
      | none => .error "nothing to send"
  | .leave k => do
      let conn ← s.connection k
      .ok (s.setConnection k conn.leave)
  | .permissionChanged k role => do
      let conn ← s.connection k
      .ok (s.setConnection k (conn.enqueueControl [.permissionChanged role]))
  | .sweep nowMs => .ok (s.sweep settings nowMs)
  | .start i => s.onServer (.start i)
  | .land i committedAtMs => s.onServer (.land i committedAtMs)
  | .succeed i => do
      let (origin, acks) := acksOf s.server.coordinator.queue i
      let s ← s.onServer (.succeed i)
      .ok { s with connections := s.connections.modify origin fun conn => conn.addAcks acks }
  | .fail i => s.onServer (.fail i)
  | .capture => s.onServer .capture
  | .writeSnapshot k => s.onServer (.writeSnapshot k)
  | .restart nextReplicaId => do
      let s ← s.onServer .restart
      .ok { s with
        pendingFirstSeenAtMs := fun _ => none
        nextReplicaId
        connections := s.connections.map Connection.crash }

end Collaboration

/-! ### What a connection keeps -/

theorem Connection.enqueueOps_eq (c : Connection) (msg : OpsFrameMessage) :
    ∃ opsQueue, c.enqueueOps msg = { c with opsQueue } := by
  unfold enqueueOps
  split_ifs <;> exact ⟨_, rfl⟩

theorem Connection.enqueueControl_eq (c : Connection) (msgs : List ControlMessage) :
    ∃ controlQueue, c.enqueueControl msgs = { c with controlQueue } := by
  unfold enqueueControl
  split_ifs <;> exact ⟨_, rfl⟩

theorem Connection.addAcks_eq (c : Connection) (acks : List (Identifier × Nat)) :
    ∃ ackBatch, c.addAcks acks = { c with ackBatch } := by
  unfold addAcks
  split_ifs <;> exact ⟨_, rfl⟩

/-- The next frame comes from one of the two queues. -/
theorem Connection.nextFrame_spec {c c' : Connection} {frame : ServerFrame}
    (next : c.nextFrame = some (frame, c')) : ∃ opsQueue controlQueue,
      c' = { c with opsQueue, controlQueue } ∧
      (∀ msg, msg ∈ opsQueue ∨ .ops msg = frame → msg ∈ c.opsQueue) ∧
      ∀ msg, msg ∈ controlQueue ∨ .control msg = frame → msg ∈ c.controlQueue := by
  unfold nextFrame at next
  split at next
  · rename_i first opsQueue queue
    obtain ⟨rfl, rfl⟩ := Prod.mk.inj (Option.some.inj next)
    refine ⟨opsQueue, c.controlQueue, rfl, fun msg sent => ?_, fun msg sent => ?_⟩
    · rw [queue]
      rcases sent with later | same
      · exact List.mem_cons_of_mem _ later
      · exact ServerFrame.ops.inj same ▸ List.mem_cons_self
    · exact sent.resolve_right nofun
  · rename_i first controlQueue none queue
    obtain ⟨rfl, rfl⟩ := Prod.mk.inj (Option.some.inj next)
    refine ⟨c.opsQueue, controlQueue, rfl, fun msg sent => ?_, fun msg sent => ?_⟩
    · exact sent.resolve_right nofun
    · rw [queue]
      rcases sent with later | same
      · exact List.mem_cons_of_mem _ later
      · exact ServerFrame.control.inj same ▸ List.mem_cons_self
  · cases next

end ConfluenceEditor
