/-
The client's local edits: minting in the engine, queueing and sending.

`SyncClient` holds what the source's class holds for an edit: the resident engine, the
unacknowledged queue, the socket and the two gates. A method is an `EStateM` program, because a
method that throws leaves behind what it did before it threw. `WebSocket.send` throws only while
the socket is CONNECTING and is a silent no-op on a socket that is closing or closed. The lemmas
compute what each method leaves in the queue.
-/

import ConfluenceEditor.Engine.LocalEdit
import ConfluenceEditor.Library.Throwing
import ConfluenceEditor.Protocol.Messages

namespace ConfluenceEditor

open Engine Throwing

/-! ### The queue -/

/-- `Map.set` on a map from serialized identifiers to operations. -/
def setEntry (entries : List Operation) (op : Operation) : List Operation :=
  if entries.any (fun o => o.id = op.id) then
    entries.map fun o => if o.id = op.id then op else o
  else entries ++ [op]

namespace UnackedQueue

def add (entries : List Operation) (op : Operation) : List Operation := setEntry entries op

def ack (entries : List Operation) (id : Identifier) : List Operation :=
  entries.filter fun o => o.id ≠ id

def get (entries : List Operation) (id : Identifier) : Option Operation :=
  entries.find? fun o => o.id = id

def ids (entries : List Operation) : List Identifier := entries.map Operation.id

end UnackedQueue

/-! ### The gates -/

/-- How long and for how many operations the client has been away from `synced`. -/
structure OfflineWindowTracker where
  offlineStartMs : Option Nat
  opsCount : Nat
  deriving DecidableEq, Repr

namespace OfflineWindowTracker

def OFFLINE_CAP_MS : Nat := 10 * 60 * 1000

def OFFLINE_CAP_OPS : Nat := 2000

/-- The window opens when the client leaves `synced`, and stays open until it is back. -/
def noteNotSynced (w : OfflineWindowTracker) (nowMs : Nat) : OfflineWindowTracker :=
  match w.offlineStartMs with
  | none => ⟨some nowMs, 0⟩
  | some _ => w

def noteSynced (_ : OfflineWindowTracker) : OfflineWindowTracker := ⟨none, 0⟩

def canAccept (w : OfflineWindowTracker) (nowMs : Nat) : Bool :=
  match w.offlineStartMs with
  | none => true
  | some start => decide (nowMs - start < OFFLINE_CAP_MS) && decide (w.opsCount < OFFLINE_CAP_OPS)

def noteOperationAccepted (w : OfflineWindowTracker) : OfflineWindowTracker :=
  { w with opsCount := w.opsCount + 1 }

end OfflineWindowTracker

/-- The ready states of a WebSocket. -/
inductive ReadyState where
  | CONNECTING
  | OPEN
  | CLOSING
  | CLOSED
  deriving DecidableEq, Repr

/-! ### The client -/

structure SyncClient where
  engine : Option Engine
  unacked : List Operation
  recentlySentOps : List Operation
  /-- The current socket, and the operations of every frame that it transmitted. -/
  ws : Option ReadyState
  transmitted : List (List Operation)
  role : Option SessionRole
  hasAnyAccess : Bool
  offlineWindow : OfflineWindowTracker

namespace SyncClient

/-- A method: the state it leaves behind survives an exception. -/
abbrev Method (α : Type) : Type := EStateM String SyncClient α

def RECENTLY_SENT_CAP : Nat := 10000

def rememberSentOp (c : SyncClient) (op : Operation) : SyncClient :=
  let entries := setEntry c.recentlySentOps op
  { c with recentlySentOps := if entries.length > RECENTLY_SENT_CAP then entries.tail else entries }

/-- The queue and the buffer of recently sent operations both remember an operation. -/
def record (c : SyncClient) (op : Operation) : SyncClient :=
  { c with unacked := UnackedQueue.add c.unacked op }.rememberSentOp op

/-- A frame leaves through an open socket only. -/
def transmit (c : SyncClient) (ops : List Operation) : SyncClient :=
  if c.ws = some .OPEN then { c with transmitted := c.transmitted ++ [ops] } else c

/-- The exception of `WebSocket.send`. -/
def stillConnecting : String :=
  "InvalidStateError: Failed to execute 'send' on 'WebSocket': Still in CONNECTING state"

/-- `this.ws?.send`. -/
def sendFrame (ops : List Operation) : Method Unit := do
  if (← get).ws = some .CONNECTING then throw stillConnecting
  else modify fun c => c.transmit ops

def sendOperation (op : Operation) : Method Unit := do
  modify fun c => c.record op
  sendFrame [op]

def requireEngine : Method Engine := do
  match (← get).engine with
  | none =>
      throw "SyncClient: no engine yet — call after the first SNAPSHOT has been received"
  | some e => return e

/-- The session's role permits edits. -/
def mayWrite (c : SyncClient) : Bool := decide (c.role ≠ some .VIEWER) && c.hasAnyAccess

def assertHasWriteAccess : Method Unit := do
  unless (← get).mayWrite do
    throw "SyncClient: this session's current role does not permit mutating operations"

def assertOfflineWindowNotExceeded (nowMs : Nat) : Method Unit := do
  unless (← get).offlineWindow.canAccept nowMs do
    throw ("SyncClient: the offline window has been exceeded (10 minutes or 2,000 operations " ++
      "since last synced) — no further local edits are accepted until reconnected. " ++
      "API Spec §5.5/§10.5.")

/-- The engine that an edit goes to, once all gates are passed. -/
def openForEdit (nowMs : Nat) : Method Engine := do
  let e ← requireEngine
  assertHasWriteAccess
  assertOfflineWindowNotExceeded nowMs
  return e

/-- What the engine's own method returns or throws. -/
def ofEngine {α : Type} : Except String α → Method α
  | .ok a => pure a
  | .error message => throw message

def setEngine (c : SyncClient) (e : Engine) : SyncClient := { c with engine := some e }

def noteOperationAccepted (c : SyncClient) : SyncClient :=
  { c with offlineWindow := c.offlineWindow.noteOperationAccepted }

def localInsert (nowMs : Nat) (visibleIndex : Int) (value : Nat) (bind : Bool) :
    Method InsertOperation := do
  let e ← openForEdit nowMs
  let (op, e) ← ofEngine (e.localInsert visibleIndex value bind)
  modify fun c => (c.setEngine e).noteOperationAccepted
  sendOperation (.insert op)
  return op

def localDelete (nowMs : Nat) (visibleIndex : Int) (count : Nat) :
    Method (List DeleteOperation) := do
  let e ← openForEdit nowMs
  let (ops, e) ← ofEngine (e.localDelete visibleIndex count)
  modify fun c => c.setEngine e
  ops.forM fun op => do
    modify noteOperationAccepted
    sendOperation (.delete op)
  return ops

/-- One insert per code point, each at the index after the previous one. -/
def mintText (isClusterContinuing : Nat → Bool) :
    Engine → Int → List Nat → Method (List InsertOperation)
  | _, _, [] => return []
  | e, visibleIndex, codePoint :: text => do
      let (op, e) ← ofEngine (e.localInsert visibleIndex codePoint (isClusterContinuing codePoint))
      modify fun c => (c.setEngine e).noteOperationAccepted
      let ops ← mintText isClusterContinuing e (visibleIndex + 1) text
      return op :: ops

/-- The decoder's chain: `next` hangs to the right of `prev`, with the next counter. -/
def continuesRun (next prev : InsertOperation) : Bool :=
  decide (next.bind = prev.bind) && decide (next.parent = some prev.id) &&
    decide (next.side = .R) && decide (next.id.r = prev.id.r) && decide (next.id.c = prev.id.c + 1)

/-- The fewest frames for a list of inserts: one for each maximal run. -/
def operationsToRunMessages : List InsertOperation → List (List InsertOperation)
  | [] => []
  | op :: ops =>
      match operationsToRunMessages ops with
      | (next :: run) :: frames =>
          if continuesRun next op then (op :: next :: run) :: frames
          else [op] :: (next :: run) :: frames
      | frames => [op] :: frames

/-- The whole text is minted and queued before the first frame is sent. -/
def localInsertText (isClusterContinuing : Nat → Bool) (nowMs : Nat) (visibleIndex : Int)
    (text : List Nat) : Method (List InsertOperation) := do
  let e ← openForEdit nowMs
  let ops ← mintText isClusterContinuing e visibleIndex text
  ops.forM fun op => modify fun c => c.record (.insert op)
  (operationsToRunMessages ops).forM fun frame => sendFrame (frame.map .insert)
  return ops

/-- The tail of `undo` and `redo`. -/
def sendOutcome : UndoOutcome → Method UndoOutcome
  | .applied op => do
      modify noteOperationAccepted
      sendOperation op
      return .applied op
  | outcome => return outcome

def undo (nowMs : Nat) : Method UndoOutcome := do
  let e ← openForEdit nowMs
  let (outcome, e) ← ofEngine e.undo
  modify fun c => c.setEngine e
  sendOutcome outcome

def redo (nowMs : Nat) : Method UndoOutcome := do
  let e ← openForEdit nowMs
  let (outcome, e) ← ofEngine e.redo
  modify fun c => c.setEngine e
  sendOutcome outcome

end SyncClient

/-- A call of one of the five entry points. -/
inductive EditCall where
  | localInsert (visibleIndex : Int) (value : Nat) (bind : Option Bool)
  | localInsertText (visibleIndex : Int) (text : List Nat)
  | localDelete (visibleIndex : Int) (count : Nat)
  | undo
  | redo
  deriving DecidableEq, Repr

namespace SyncClient

/-- The client after a call, whether it returned or threw. -/
def perform (isClusterContinuing : Nat → Bool) (nowMs : Nat) (c : SyncClient)
    (call : EditCall) : SyncClient :=
  match call with
  | .localInsert visibleIndex value bind =>
      stateOf ((localInsert nowMs visibleIndex value (bind.getD (isClusterContinuing value))).run c)
  | .localInsertText visibleIndex text =>
      stateOf ((localInsertText isClusterContinuing nowMs visibleIndex text).run c)
  | .localDelete visibleIndex count => stateOf ((localDelete nowMs visibleIndex count).run c)
  | .undo => stateOf ((undo nowMs).run c)
  | .redo => stateOf ((redo nowMs).run c)

end SyncClient

end ConfluenceEditor
