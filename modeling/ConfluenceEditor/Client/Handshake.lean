/-
The client's side of a connection.

`ConnectedClient` adds to the client what a connection needs: the reported queue, the jobs chained
onto the handshake's gate, and the bookkeeping of `highestAppliedSeq`. Each handler of the source is
a function of the same name. A handler that throws leaves `.error`; on a sound engine none does. The
promise chain of the gate is the list of its jobs in their order: a job runs in a later turn, and is
skipped when another connection was opened meanwhile.
-/

import ConfluenceEditor.Client.Reconcile
import ConfluenceEditor.Client.SyncClient
import ConfluenceEditor.Engine.Revert

namespace ConfluenceEditor

open Engine

inductive ConnectionState where
  | offline
  | connecting
  | reconnecting
  | synced
  deriving DecidableEq, Repr

structure RejectedEntry where
  op : Operation
  reason : RejectReason
  detail : String
  reverted : Bool
  deriving DecidableEq, Repr

/-- What waits for the handshake's gate. -/
inductive GateJob where
  | catchupChunk (throughSeq : Nat) (ops : List Operation)
  | catchupEnd (toSeq : Nat)
  | alreadyHave (alreadyHave : List Identifier)
  deriving DecidableEq, Repr

structure ConnectedClient extends SyncClient where
  replicaId : Option Nat
  state : ConnectionState
  everSynced : Bool
  rejectedOps : List RejectedEntry
  highestAppliedSeq : Nat
  catchupPendingSeqs : List (Identifier × Nat)
  catchupHighestSeqSeen : Nat
  liveConfirmedSeqs : List Nat
  livePendingSeqs : List (Identifier × Nat)
  handshakeGeneration : Nat
  /-- The jobs that are chained, each with the generation of its handshake. -/
  handshakeGate : List (Nat × GateJob)
  helloUnackedIds : List Identifier

namespace ConnectedClient

/-- A client that was just constructed. -/
def new : ConnectedClient where
  engine := none
  unacked := []
  recentlySentOps := []
  ws := none
  transmitted := []
  role := none
  hasAnyAccess := true
  offlineWindow := ⟨none, 0⟩
  replicaId := none
  state := .offline
  everSynced := false
  rejectedOps := []
  highestAppliedSeq := 0
  catchupPendingSeqs := []
  catchupHighestSeqSeen := 0
  liveConfirmedSeqs := []
  livePendingSeqs := []
  handshakeGeneration := 0
  handshakeGate := []
  helloUnackedIds := []

/-! ### The socket -/

def setState (c : ConnectedClient) (next : ConnectionState) (nowMs : Nat) : ConnectedClient :=
  { c with
    state := next
    offlineWindow :=
      if next = .synced then c.offlineWindow.noteSynced else c.offlineWindow.noteNotSynced nowMs }

/-- A new socket takes the place of the old one. -/
def openSocketNow (c : ConnectedClient) : ConnectedClient :=
  { c with ws := some .CONNECTING, transmitted := [] }

def connect (c : ConnectedClient) (nowMs : Nat) : ConnectedClient :=
  (c.setState (if c.everSynced then .reconnecting else .connecting) nowMs).openSocketNow

/-- The jobs of earlier connections are stale from now on. -/
def onOpen (c : ConnectedClient) : ConnectedClient × HelloMessage :=
  let c := { c with
    ws := some .OPEN
    handshakeGeneration := c.handshakeGeneration + 1
    handshakeGate := []
    helloUnackedIds := UnackedQueue.ids c.unacked }
  (c, ⟨c.highestAppliedSeq, c.helloUnackedIds, c.engine.isSome⟩)

def onClose (c : ConnectedClient) (nowMs : Nat) : ConnectedClient :=
  { c with ws := none }.setState .reconnecting nowMs

def disconnect (c : ConnectedClient) (nowMs : Nat) : ConnectedClient :=
  { c.setState .offline nowMs with ws := none }

/-! ### The sequence number that the next HELLO reports -/

/-- `Map.set` on a map from serialized identifiers to sequence numbers. -/
def setSeq (entries : List (Identifier × Nat)) (id : Identifier) (seq : Nat) :
    List (Identifier × Nat) :=
  if entries.any fun e => e.1 = id then entries.map fun e => if e.1 = id then (id, seq) else e
  else entries ++ [(id, seq)]

/-- The operation is in the buffer of the client's engine. -/
def isPending (c : ConnectedClient) (id : Identifier) : Bool :=
  match c.engine with
  | some e => e.pending.any fun op => op.id = id
  | none => true

def noteCatchupPossiblyBuffered (c : ConnectedClient) (seq : Nat) (id : Identifier)
    (buffered : Bool) : ConnectedClient :=
  if buffered then { c with catchupPendingSeqs := setSeq c.catchupPendingSeqs id seq } else c

/-- Everything that was seen, or what precedes the first number that still waits. -/
def recomputeCatchupSeqCeiling (c : ConnectedClient) : ConnectedClient :=
  let waiting := c.catchupPendingSeqs.filter fun e => c.isPending e.1
  let safeSeq := match (waiting.map Prod.snd).min? with
    | none => c.catchupHighestSeqSeen
    | some first => first - 1
  { c with
    catchupPendingSeqs := waiting
    highestAppliedSeq := max c.highestAppliedSeq safeSeq }

/-- Walk through the confirmed numbers one at a time; each step takes one out. -/
def walkCeiling : Nat → Nat → List Nat → Nat × List Nat
  | 0, highest, confirmed => (highest, confirmed)
  | steps + 1, highest, confirmed =>
      if highest + 1 ∈ confirmed then
        walkCeiling steps (highest + 1) (confirmed.filter (· ≠ highest + 1))
      else (highest, confirmed)

def advanceLiveSeqCeiling (c : ConnectedClient) : ConnectedClient :=
  let waiting := c.livePendingSeqs.filter fun e => c.isPending e.1
  let resolved := c.livePendingSeqs.filter fun e => !c.isPending e.1
  let confirmed := c.liveConfirmedSeqs ++ resolved.map Prod.snd
  let (highest, confirmed) := walkCeiling confirmed.length c.highestAppliedSeq confirmed
  { c with
    livePendingSeqs := waiting
    liveConfirmedSeqs := confirmed
    highestAppliedSeq := highest }

/-! ### The handshake -/

/-- The bookkeeping of a replaced engine is cleared. -/
def resetSeqs (c : ConnectedClient) (seen : Nat) : ConnectedClient :=
  { c with
    catchupPendingSeqs := []
    catchupHighestSeqSeen := seen
    liveConfirmedSeqs := []
    livePendingSeqs := [] }

def handleSnapshot (c : ConnectedClient) (seq : Nat) (nodes : List Node) :
    Except String ConnectedClient :=
  match c.replicaId with
  | none => .ok c
  | some replicaId => do
      let e ← seedEngineFromSnapshot replicaId nodes
      .ok ({ c with engine := some e, highestAppliedSeq := seq }.resetSeqs seq)

/-- The nodes of the resident engine that a reconnect keeps. -/
def cleanBase (c : ConnectedClient) : List Node :=
  match c.engine with
  | some e => buildCleanCatchupBase e.nodes (c.unacked.map Operation.id)
  | none => []

def rebuildEngineForReconnect (c : ConnectedClient) : Except String ConnectedClient :=
  match c.replicaId with
  | none => .ok c
  | some replicaId => do
      let e ← seedEngineFromSnapshot replicaId c.cleanBase
      .ok ({ c with engine := some e }.resetSeqs c.highestAppliedSeq)

/-- Chain a job onto the gate. -/
def chain (c : ConnectedClient) (job : GateJob) : ConnectedClient :=
  { c with handshakeGate := c.handshakeGate ++ [(c.handshakeGeneration, job)] }

def handleControl (c : ConnectedClient) : ControlMessage → Except String ConnectedClient
  | .welcome replicaId role syncMode =>
      let c := { c with replicaId := some replicaId, role := some role, hasAnyAccess := true }
      if syncMode = .ALREADY_CURRENT then c.rebuildEngineForReconnect else .ok c
  | .snapshot seq nodes => c.handleSnapshot seq nodes
  | .catchupBegin _ => c.rebuildEngineForReconnect
  | .catchupChunk throughSeq ops => .ok (c.chain (.catchupChunk throughSeq ops))
  | .catchupEnd toSeq => .ok (c.chain (.catchupEnd toSeq))
  | .alreadyHave alreadyHave => .ok (c.chain (.alreadyHave alreadyHave))
  | .permissionChanged role => .ok { c with role, hasAnyAccess := role.isSome }

/-- The operations of a chunk; they are taken to have consecutive numbers up to `throughSeq`. -/
def applyChunk (c : ConnectedClient) (throughSeq : Nat) :
    List Operation → Except String ConnectedClient
  | [] => .ok c
  | op :: ops =>
      match c.engine with
      | none => .ok c
      | some e => do
          let (buffered, e) ← e.applyRemote op none
          let c := { c with engine := some e }
          (c.noteCatchupPossiblyBuffered (throughSeq - ops.length) op.id buffered).applyChunk
            throughSeq ops

/-- The reported stamps leave the queue; those that the server does not have are minted again. -/
def settleHello (c : ConnectedClient) (alreadyHave : List Identifier) :
    List Operation × List Operation :=
  c.helloUnackedIds.foldl (fun (queue, toReconcile) id =>
    match UnackedQueue.get queue id with
    | none => (queue, toReconcile)
    | some op => (UnackedQueue.ack queue id,
        if id ∈ alreadyHave then toReconcile else toReconcile ++ [op])) (c.unacked, [])

def recordAll (c : ConnectedClient) (ops : List Operation) : ConnectedClient :=
  { c with toSyncClient := ops.foldl SyncClient.record c.toSyncClient }

/-- `next` goes into the frame of `prev`: as typed text, or as a delete with the next counter. -/
def continuesFrame (prev next : Operation) : Bool :=
  match prev, next with
  | .insert prev, .insert next => SyncClient.continuesRun next prev
  | .delete prev, .delete next =>
      decide (next.id.r = prev.id.r) && decide (next.id.c = prev.id.c + 1)
  | _, _ => false

/-- The fewest frames for reconciled operations. -/
def operationsToWireMessages (ops : List Operation) : List (List Operation) :=
  ops.splitBy continuesFrame

/-- The queue is complete before the first frame is sent, which a socket that is still connecting
refuses. -/
def finishHandshakeAfterAlreadyHave (c : ConnectedClient) (alreadyHave : List Identifier)
    (nowMs : Nat) : Except String ConnectedClient :=
  match c.engine with
  | none => .ok c
  | some e => do
      let (queue, toReconcile) := c.settleHello alreadyHave
      let s ← reconcileOfflineQueue e toReconcile
      let c := { c with unacked := queue, engine := some s.engine }.recordAll s.resent
      if c.ws = some .CONNECTING then .ok c
      else
        let sent := (operationsToWireMessages s.resent).foldl SyncClient.transmit c.toSyncClient
        .ok ({ c with toSyncClient := sent, everSynced := true }.setState .synced nowMs)

def runJob (c : ConnectedClient) (nowMs : Nat) : GateJob → Except String ConnectedClient
  | .catchupChunk throughSeq ops =>
      if c.engine.isNone then .ok c
      else do
        let c ← c.applyChunk throughSeq ops
        .ok ({ c with
          catchupHighestSeqSeen := max c.catchupHighestSeqSeen throughSeq
        }.recomputeCatchupSeqCeiling)
  | .catchupEnd toSeq =>
      .ok ({ c with
        catchupHighestSeqSeen := max c.catchupHighestSeqSeen toSeq }.recomputeCatchupSeqCeiling)
  | .alreadyHave alreadyHave => c.finishHandshakeAfterAlreadyHave alreadyHave nowMs

/-- The next job of the gate takes its turn. -/
def runGate (c : ConnectedClient) (nowMs : Nat) : Except String ConnectedClient :=
  match c.handshakeGate with
  | [] => .error "no job is chained"
  | (generation, job) :: gate =>
      if generation ≠ c.handshakeGeneration then .ok { c with handshakeGate := gate }
      else runJob { c with handshakeGate := gate } nowMs job

/-! ### The channel of operations -/

/-- The operations of a live frame; the first one has the number `seq`. -/
def applyLive (c : ConnectedClient) (seq : Nat) : List Operation → Except String ConnectedClient
  | [] => .ok c
  | op :: ops =>
      match c.engine with
      | none => .ok c
      | some e => do
          let (buffered, e) ← e.applyRemote op none
          let c := { c with engine := some e }
          let c := if buffered then { c with livePendingSeqs := setSeq c.livePendingSeqs op.id seq }
            else { c with liveConfirmedSeqs := c.liveConfirmedSeqs ++ [seq] }
          c.applyLive (seq + 1) ops

def handleOps (c : ConnectedClient) (seq : Nat) (ops : List Operation) :
    Except String ConnectedClient :=
  if c.engine.isNone then .ok c
  else do
    let c ← c.applyLive seq ops
    .ok c.advanceLiveSeqCeiling

def preserveRejected (c : ConnectedClient) (entry : RejectedEntry) : ConnectedClient :=
  { c with rejectedOps :=
      if c.rejectedOps.any fun x => x.op.id = entry.op.id then
        c.rejectedOps.map fun x => if x.op.id = entry.op.id then entry else x
      else c.rejectedOps ++ [entry] }

/-- Take the insert out of the resident engine, if nothing is anchored to it. -/
def revert (c : ConnectedClient) (op : Operation) : Bool × ConnectedClient :=
  match op, c.engine with
  | .insert ins, some e =>
      let (reverted, e) := e.tryRevertLocalInsert ins.id
      (reverted, { c with engine := some e })
  | _, _ => (false, c)

/-- A rejected operation is preserved, from the queue or from what was sent recently. -/
def handleReject (c : ConnectedClient) (detail : String) (rejected : Identifier × RejectReason) :
    ConnectedClient :=
  let found := (UnackedQueue.get c.unacked rejected.1).or
    (UnackedQueue.get c.recentlySentOps rejected.1)
  let c := { c with unacked := UnackedQueue.ack c.unacked rejected.1 }
  match found with
  | none => c
  | some op =>
      let (reverted, c) := c.revert op
      c.preserveRejected ⟨op, rejected.2, detail, reverted⟩

def handleOpsMessage (c : ConnectedClient) : OpsFrameMessage → Except String ConnectedClient
  | .ops seq ops => c.handleOps seq ops
  | .opAck acks =>
      .ok ({ c with
        unacked := (acks.map Prod.fst).foldl UnackedQueue.ack c.unacked
        liveConfirmedSeqs := c.liveConfirmedSeqs ++ acks.map Prod.snd }.advanceLiveSeqCeiling)
  | .opReject rejects detail =>
      .ok (rejects.foldl (fun c rejected => c.handleReject detail rejected) c)

def discardRejected (c : ConnectedClient) : ConnectedClient := { c with rejectedOps := [] }

/-- A call of one of the entry points for edits. -/
def perform (isClusterContinuing : Nat → Bool) (nowMs : Nat) (c : ConnectedClient)
    (call : EditCall) : ConnectedClient :=
  { c with toSyncClient := SyncClient.perform isClusterContinuing nowMs c.toSyncClient call }

/-! ### What a handler leaves alone -/

section Frame

variable {c c' : ConnectedClient}

theorem seedEngineFromSnapshot_ok {replicaId : Nat} {nodes : List Node} {f : Engine → ConnectedClient}
    (seeded : (do let e ← seedEngineFromSnapshot replicaId nodes; .ok (f e)) = Except.ok c') :
    ∃ e, seedEngineFromSnapshot replicaId nodes = .ok e ∧ c' = f e := by
  obtain ⟨e, seed, done⟩ := Throwing.ok_of_bind seeded
  exact ⟨e, seed, (Except.ok.inj done).symm⟩

/-- A chunk changes the engine and the list of what waits. -/
theorem applyChunk_frame {throughSeq : Nat} {ops : List Operation}
    (applied : c.applyChunk throughSeq ops = .ok c') :
    ∃ engine catchupPendingSeqs, c' = { c with engine, catchupPendingSeqs } := by
  induction ops generalizing c with
  | nil =>
      obtain rfl := Except.ok.inj applied
      exact ⟨_, _, rfl⟩
  | cons op ops ih =>
      rw [applyChunk] at applied
      split at applied
      · obtain rfl := Except.ok.inj applied
        exact ⟨_, _, rfl⟩
      · obtain ⟨⟨buffered, e⟩, -, applied⟩ := Throwing.ok_of_bind applied
        obtain ⟨engine, waiting, rfl⟩ := ih applied
        unfold noteCatchupPossiblyBuffered
        split_ifs <;> exact ⟨engine, waiting, rfl⟩

/-- A live frame changes the engine and the bookkeeping of live numbers. -/
theorem applyLive_frame {seq : Nat} {ops : List Operation} (applied : c.applyLive seq ops = .ok c') :
    ∃ engine livePendingSeqs liveConfirmedSeqs,
      c' = { c with engine, livePendingSeqs, liveConfirmedSeqs } := by
  induction ops generalizing c seq with
  | nil =>
      obtain rfl := Except.ok.inj applied
      exact ⟨_, _, _, rfl⟩
  | cons op ops ih =>
      rw [applyLive] at applied
      split at applied
      · obtain rfl := Except.ok.inj applied
        exact ⟨_, _, _, rfl⟩
      · obtain ⟨⟨buffered, e⟩, -, applied⟩ := Throwing.ok_of_bind applied
        obtain ⟨engine, waiting, confirmed, rfl⟩ := ih applied
        split_ifs <;> exact ⟨engine, waiting, confirmed, rfl⟩

/-- A rejection changes the queue, the engine and what is preserved. -/
theorem handleReject_frame (c : ConnectedClient) (detail : String)
    (rejected : Identifier × RejectReason) : ∃ engine unacked rejectedOps,
      c.handleReject detail rejected = { c with engine, unacked, rejectedOps } := by
  simp only [handleReject]
  split
  · exact ⟨_, _, _, rfl⟩
  · unfold revert preserveRejected
    split <;> exact ⟨_, _, _, rfl⟩

theorem handleRejects_frame (c : ConnectedClient) (detail : String)
    (rejects : List (Identifier × RejectReason)) : ∃ engine unacked rejectedOps,
      rejects.foldl (fun c rejected => c.handleReject detail rejected) c =
        { c with engine, unacked, rejectedOps } := by
  induction rejects generalizing c with
  | nil => exact ⟨_, _, _, rfl⟩
  | cons rejected rejects ih =>
      obtain ⟨engine, unacked, rejectedOps, first⟩ := handleReject_frame c detail rejected
      obtain ⟨engine', unacked', rejectedOps', rest⟩ := ih (c.handleReject detail rejected)
      refine ⟨engine', unacked', rejectedOps', ?_⟩
      rw [List.foldl_cons, rest, first]

/-- The gate and its generation are untouched. -/
def SameGate (c c' : ConnectedClient) : Prop :=
  c'.handshakeGate = c.handshakeGate ∧ c'.handshakeGeneration = c.handshakeGeneration

theorem sameGate_handleOpsMessage {msg : OpsFrameMessage}
    (handled : c.handleOpsMessage msg = .ok c') : SameGate c c' := by
  cases msg with
  | ops seq ops =>
      simp only [handleOpsMessage, handleOps] at handled
      split_ifs at handled
      · obtain rfl := Except.ok.inj handled
        exact ⟨rfl, rfl⟩
      · obtain ⟨c₁, applied, done⟩ := Throwing.ok_of_bind handled
        obtain rfl := Except.ok.inj done
        obtain ⟨engine, waiting, confirmed, rfl⟩ := applyLive_frame applied
        exact ⟨rfl, rfl⟩
  | opAck acks =>
      obtain rfl := Except.ok.inj handled
      exact ⟨rfl, rfl⟩
  | opReject rejects detail =>
      obtain rfl := Except.ok.inj handled
      obtain ⟨engine, unacked, rejectedOps, same⟩ := handleRejects_frame c detail rejects
      rw [same]
      exact ⟨rfl, rfl⟩

/-- The job that a control message chains onto the gate. -/
def jobOf : ControlMessage → Option GateJob
  | .catchupChunk throughSeq ops => some (.catchupChunk throughSeq ops)
  | .catchupEnd toSeq => some (.catchupEnd toSeq)
  | .alreadyHave alreadyHave => some (.alreadyHave alreadyHave)
  | _ => none

/-- What a control message does: the client learns who it is and what it may do, it gets an engine
seeded from nodes in place of the resident one, or a job is chained onto the gate. -/
inductive Controlled (c : ConnectedClient) : Option GateJob → ConnectedClient → Prop
  | told (replicaId : Option Nat) (role : Option SessionRole) (hasAnyAccess : Bool) :
      Controlled c none { c with replicaId, role, hasAnyAccess }
  | seeded (replicaId : Option Nat) (role : Option SessionRole) (hasAnyAccess : Bool)
      (highestAppliedSeq seen : Nat) {owner : Nat} {nodes : List Node} {e : Engine}
      (seed : seedEngineFromSnapshot owner nodes = .ok e) :
      Controlled c none ({ c with
        replicaId, role, hasAnyAccess, highestAppliedSeq, engine := some e }.resetSeqs seen)
  | chained (job : GateJob) : Controlled c (some job) (c.chain job)

theorem controlled_of_rebuild {replicaId : Option Nat} {role : Option SessionRole}
    {hasAnyAccess : Bool}
    (rebuilt : { c with replicaId, role, hasAnyAccess }.rebuildEngineForReconnect = .ok c') :
    Controlled c none c' := by
  unfold rebuildEngineForReconnect at rebuilt
  split at rebuilt
  · obtain rfl := Except.ok.inj rebuilt
    exact .told replicaId role hasAnyAccess
  · obtain ⟨e, seed, rfl⟩ := seedEngineFromSnapshot_ok rebuilt
    exact .seeded replicaId role hasAnyAccess c.highestAppliedSeq c.highestAppliedSeq seed

theorem controlled_of_handleControl {msg : ControlMessage}
    (handled : c.handleControl msg = .ok c') : Controlled c (jobOf msg) c' := by
  cases msg with
  | welcome replicaId role syncMode =>
      simp only [handleControl] at handled
      split_ifs at handled
      · exact controlled_of_rebuild handled
      · obtain rfl := Except.ok.inj handled
        exact .told (some replicaId) (some role) true
  | snapshot seq nodes =>
      simp only [handleControl, handleSnapshot] at handled
      split at handled
      · obtain rfl := Except.ok.inj handled
        exact .told c.replicaId c.role c.hasAnyAccess
      · obtain ⟨e, seed, rfl⟩ := seedEngineFromSnapshot_ok handled
        exact .seeded c.replicaId c.role c.hasAnyAccess seq seq seed
  | catchupBegin totalOps =>
      exact @controlled_of_rebuild c c' c.replicaId c.role c.hasAnyAccess handled
  | catchupChunk throughSeq ops =>
      obtain rfl := Except.ok.inj handled
      exact .chained (.catchupChunk throughSeq ops)
  | catchupEnd toSeq =>
      obtain rfl := Except.ok.inj handled
      exact .chained (.catchupEnd toSeq)
  | alreadyHave alreadyHave =>
      obtain rfl := Except.ok.inj handled
      exact .chained (.alreadyHave alreadyHave)
  | permissionChanged role =>
      obtain rfl := Except.ok.inj handled
      exact .told c.replicaId role role.isSome

theorem handleControl_gate {msg : ControlMessage} (handled : c.handleControl msg = .ok c') :
    c'.handshakeGate =
        c.handshakeGate ++ ((jobOf msg).map fun job => (c.handshakeGeneration, job)).toList ∧
      c'.handshakeGeneration = c.handshakeGeneration := by
  have controlled := controlled_of_handleControl handled
  generalize jobOf msg = job at controlled ⊢
  cases controlled with
  | told => exact ⟨(List.append_nil _).symm, rfl⟩
  | seeded => exact ⟨(List.append_nil _).symm, rfl⟩
  | chained job => exact ⟨rfl, rfl⟩

theorem sameGate_finish {alreadyHave : List Identifier} {nowMs : Nat}
    (finished : c.finishHandshakeAfterAlreadyHave alreadyHave nowMs = .ok c') : SameGate c c' := by
  unfold finishHandshakeAfterAlreadyHave at finished
  split at finished
  · obtain rfl := Except.ok.inj finished
    exact ⟨rfl, rfl⟩
  · generalize c.settleHello alreadyHave = settled at finished
    obtain ⟨queue, toReconcile⟩ := settled
    obtain ⟨s, -, done⟩ := Throwing.ok_of_bind finished
    simp only at done
    split_ifs at done
    · obtain rfl := Except.ok.inj done
      exact ⟨rfl, rfl⟩
    · obtain rfl := Except.ok.inj done
      exact ⟨rfl, rfl⟩

theorem sameGate_runJob {nowMs : Nat} {job : GateJob} (ran : c.runJob nowMs job = .ok c') :
    SameGate c c' := by
  cases job with
  | catchupChunk throughSeq ops =>
      simp only [runJob] at ran
      split_ifs at ran
      · obtain rfl := Except.ok.inj ran
        exact ⟨rfl, rfl⟩
      · obtain ⟨c₁, applied, done⟩ := Throwing.ok_of_bind ran
        obtain rfl := Except.ok.inj done
        obtain ⟨engine, waiting, rfl⟩ := applyChunk_frame applied
        exact ⟨rfl, rfl⟩
  | catchupEnd toSeq =>
      obtain rfl := Except.ok.inj ran
      exact ⟨rfl, rfl⟩
  | alreadyHave alreadyHave => exact sameGate_finish ran

/-- The first job leaves the gate, and runs unless it is stale. -/
theorem runGate_cases {nowMs : Nat} (ran : c.runGate nowMs = .ok c') :
    ∃ generation job gate, c.handshakeGate = (generation, job) :: gate ∧
      ((generation ≠ c.handshakeGeneration ∧ c' = { c with handshakeGate := gate }) ∨
        (generation = c.handshakeGeneration ∧
          runJob { c with handshakeGate := gate } nowMs job = .ok c')) := by
  unfold runGate at ran
  split at ran
  · cases ran
  · rename_i generation job gate chained
    split_ifs at ran with stale
    · exact ⟨generation, job, gate, chained, Or.inl ⟨stale, (Except.ok.inj ran).symm⟩⟩
    · exact ⟨generation, job, gate, chained, Or.inr ⟨not_not.mp stale, ran⟩⟩

theorem runGate_gate {nowMs : Nat} (ran : c.runGate nowMs = .ok c') :
    c'.handshakeGate = c.handshakeGate.tail ∧
      c'.handshakeGeneration = c.handshakeGeneration := by
  obtain ⟨generation, job, gate, chained, ⟨-, rfl⟩ | ⟨-, ran⟩⟩ := runGate_cases ran
  · rw [chained]
    exact ⟨rfl, rfl⟩
  · rw [chained]
    exact sameGate_runJob ran

end Frame

end ConnectedClient

end ConfluenceEditor
