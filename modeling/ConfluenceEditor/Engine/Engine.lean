/-
The convergence engine of one replica.

The definitions follow the source's engine class: the Lamport clock (`mint`, `observe`), readiness,
the three kinds of application, the pending buffer with its drain loop, the local edits and
undo/redo. A method that throws in the source returns `.error` with the thrown text. The arrays used
as stacks are lists with the top in front; `pending` keeps the source's order.
-/

import ConfluenceEditor.Engine.FugueTree

namespace ConfluenceEditor

/-- An operation on a stack, and whether applying it changed the node's visibility. -/
structure UndoStackEntry where
  op : Operation
  hadEffect : Bool
  deriving DecidableEq, Repr

inductive UndoOutcome where
  | empty
  | unavailable
  | applied (operation : Operation)
  deriving DecidableEq, Repr

/-- The sequence number and arrival time recorded for a delete, for garbage collection. -/
structure DeleteContext where
  seq : Nat
  atMs : Nat
  deriving DecidableEq, Repr

structure Engine where
  replicaId : Nat
  clock : Nat
  tree : FugueTree
  applied : List Identifier
  pending : List Operation
  deleteContext : Identifier → Option DeleteContext
  maxCounterByReplica : Nat → Option Nat
  undoStack : List UndoStackEntry
  redoStack : List UndoStackEntry

/-- The UTF-16 code units of one code point; `String.fromCodePoint` throws above the range. -/
def fromCodePoint (value : Nat) : Except String (List Nat) :=
  if value < 0x10000 then .ok [value]
  else if value ≤ 0x10FFFF then
    .ok [0xD800 + (value - 0x10000) / 0x400, 0xDC00 + (value - 0x10000) % 0x400]
  else .error ("RangeError: Invalid code point " ++ toString value)

namespace Engine

def new (replicaId : Nat) : Engine :=
  ⟨replicaId, 0, FugueTree.empty, [], [], fun _ => none, fun _ => none, [], []⟩

def nodes (e : Engine) : List Node := e.tree.toArray

def visible (e : Engine) : List Node := e.nodes.filter fun n => !n.deleted

/-- The document as UTF-16 code units. -/
def text (e : Engine) : Except String (List Nat) :=
  (e.visible.mapM fun n => fromCodePoint n.value).map List.flatten

/-! ### The clock -/

/-- Mint a new local identifier; the clock advances by one. -/
def mint (e : Engine) : Identifier × Engine :=
  (⟨e.clock + 1, e.replicaId⟩, { e with clock := e.clock + 1 })

/-- Merge a remote counter into the clock without minting. -/
def observe (e : Engine) (remoteCounter : Nat) : Engine :=
  { e with clock := max e.clock remoteCounter }

/-! ### Applying one operation -/

def isOriginPresent (e : Engine) : Option Identifier → Bool
  | none => true
  | some id => e.tree.hasIdentifier id

/-- The operation's one causal dependency is present. -/
def ready (e : Engine) : Operation → Bool
  | .insert op => e.isOriginPresent op.parent
  | .delete op => e.tree.hasIdentifier op.target
  | .undelete op => e.tree.hasIdentifier op.target

def applyInsert (e : Engine) (op : InsertOperation) : Except String Engine := do
  let tree ← e.tree.attach op.id op.value op.bind op.parent op.side
  .ok { e with tree }

/-- Tombstone the target; attribution goes to the greatest delete identifier. -/
def applyDelete (e : Engine) (op : DeleteOperation) : Except String Engine :=
  match e.tree.nodeByIdentifier op.target with
  | none => .error ("applyDelete(): target " ++ serializeId op.target ++ " is not present")
  | some node => do
      let newDeletedBy := match node.deletedBy with
        | none => op.id
        | some deletedBy => if compareIds op.id deletedBy > 0 then op.id else deletedBy
      let tree ← e.tree.setDeleted op.target true (some newDeletedBy)
      .ok { e with tree }

/-- Revive the target only when its deletion is attributed to the undeleting replica. -/
def applyUndelete (e : Engine) (op : UndeleteOperation) : Except String Engine :=
  match e.tree.nodeByIdentifier op.target with
  | none => .error ("applyUndelete(): target " ++ serializeId op.target ++ " is not present")
  | some node =>
      match node.deletedBy with
      | none => .ok e
      | some deletedBy =>
          if deletedBy.r = op.id.r then do
            let tree ← e.tree.setDeleted op.target false none
            .ok { e with
              tree
              deleteContext := Function.update e.deleteContext deletedBy none }
          else .ok e

/-- The application of an operation by its kind. -/
def applyKind (e : Engine) : Operation → Except String Engine
  | .insert op => e.applyInsert op
  | .delete op => e.applyDelete op
  | .undelete op => e.applyUndelete op

/-- The highest counter seen from the operation's replica. -/
def noteCounter (e : Engine) (id : Identifier) : Engine :=
  match e.maxCounterByReplica id.r with
  | some seenCounter =>
      if id.c > seenCounter then
        { e with maxCounterByReplica := Function.update e.maxCounterByReplica id.r (some id.c) }
      else e
  | none => { e with maxCounterByReplica := Function.update e.maxCounterByReplica id.r (some id.c) }

def markApplied (e : Engine) (id : Identifier) : Engine := { e with applied := id :: e.applied }

def hasApplied (e : Engine) (id : Identifier) : Bool := decide (id ∈ e.applied)

def doApply (e : Engine) (op : Operation) : Except String Engine := do
  let e ← ((e.observe op.id.c).noteCounter op.id).applyKind op
  .ok (e.markApplied op.id)

/-! ### The pending buffer -/

/-- One sweep of the drain loop, from the end of the buffer: the operations that stay, and whether
anything was applied or discarded. -/
def drainPass (e : Engine) : List Operation → Except String (Engine × List Operation × Bool)
  | [] => .ok (e, [], false)
  | op :: earlierIndex => do
      let (e, kept, progressed) ← e.drainPass earlierIndex
      if e.hasApplied op.id then .ok (e, kept, true)
      else if e.ready op then do
        let e ← e.doApply op
        .ok (e, kept, true)
      else .ok (e, op :: kept, progressed)

/-- The drain loop with a bound on the number of sweeps. -/
def drainLoop : Nat → Engine → Except String Engine
  | 0, e => .ok e
  | sweeps + 1, e => do
      let (e', kept, progressed) ← e.drainPass e.pending
      let e' := { e' with pending := kept }
      if progressed then drainLoop sweeps e' else .ok e'

/-- Sweep until a sweep makes no progress: each sweep before the last one removes an entry. -/
def drain (e : Engine) : Except String Engine := drainLoop (e.pending.length + 1) e

/-- The context of a delete is recorded whether or not the delete can be applied yet. -/
def recordContext (e : Engine) : Operation → Option DeleteContext → Engine
  | .delete op, some context =>
      { e with deleteContext := Function.update e.deleteContext op.id (some context) }
  | _, _ => e

/-- Apply, buffer or ignore a remote operation; `true` when it was buffered. -/
def applyRemote (e : Engine) (op : Operation) (context : Option DeleteContext) :
    Except String (Bool × Engine) :=
  let e := e.recordContext op context
  if e.hasApplied op.id then .ok (false, e)
  else if e.ready op then do
    let e ← e.doApply op
    let e ← e.drain
    .ok (false, e)
  else .ok (true, { e with pending := e.pending ++ [op] })

def setDeleteContext (e : Engine) (deleteOpId : Identifier) (context : DeleteContext) : Engine :=
  { e with deleteContext := Function.update e.deleteContext deleteOpId (some context) }

/-- Remove the first buffered operation with this identifier; `false` when there is none. -/
def rejectPending (e : Engine) (id : Identifier) : Bool × Engine :=
  if e.pending.any (fun op => op.id = id) then
    (true, { e with pending := e.pending.eraseP fun op => op.id = id })
  else (false, e)

/-! ### Local edits -/

/-- Insert at a visible index. The classification of `value` as cluster-continuing is the caller's
`bind`. -/
def localInsert (e : Engine) (visibleIndex : Int) (value : Nat) (bind : Bool) :
    Except String (InsertOperation × Engine) := do
  let (parent, side) ← e.tree.decidePlacement visibleIndex
  let (id, e) := e.mint
  let op : InsertOperation := { id, value, parent, side, bind }
  let e ← e.applyInsert op
  let e := e.markApplied op.id
  .ok (op, { e with undoStack := ⟨.insert op, true⟩ :: e.undoStack, redoStack := [] })

/-- The remaining iterations of `localDelete`. -/
def localDeleteLoop (visibleIndex : Int) :
    Nat → Engine → Except String (List DeleteOperation × Engine)
  | 0, e => .ok ([], e)
  | count + 1, e => do
      match ← e.tree.nodeAtVisible visibleIndex with
      | none => .ok ([], e)
      | some target =>
          let (id, e) := e.mint
          let op : DeleteOperation := { id, target := target.id }
          let e ← e.applyDelete op
          let e := e.markApplied op.id
          let e := { e with undoStack := ⟨.delete op, true⟩ :: e.undoStack }
          let (ops, e) ← localDeleteLoop visibleIndex count e
          .ok (op :: ops, e)

/-- Delete up to `count` visible nodes from a visible index on, one operation each. -/
def localDelete (e : Engine) (visibleIndex : Int) (count : Nat) :
    Except String (List DeleteOperation × Engine) :=
  localDeleteLoop visibleIndex count { e with redoStack := [] }

/-! ### Undo and redo -/

/-- What a reversal does to its target. -/
inductive InverseKind where
  | delete
  | undelete
  deriving DecidableEq, Repr

/-- The opposite operation on the same node. -/
def standardInverse : Operation → InverseKind × Identifier
  | .insert op => (.delete, op.id)
  | .delete op => (.undelete, op.target)
  | .undelete op => (.delete, op.target)

/-- Another operation of the same kind, for an entry that is known to have had no effect. -/
def repeatSameKind : Operation → Except String (InverseKind × Identifier)
  | .delete op => .ok (.delete, op.target)
  | .undelete op => .ok (.undelete, op.target)
  | .insert _ => .error "unreachable: repeatSameKind() called on an insert"

/-- How an entry is reversed. -/
def reversal (entry : UndoStackEntry) : Except String (InverseKind × Identifier) :=
  if entry.hadEffect then .ok (standardInverse entry.op) else repeatSameKind entry.op

def inverseOperation (id target : Identifier) : InverseKind → Operation
  | .delete => .delete ⟨id, target⟩
  | .undelete => .undelete ⟨id, target⟩

/-- Reverse the top entry of one stack and push the reversal onto the other: the outcome, the
engine, and the two stacks. -/
def stepUndoRedo (e : Engine) (popFrom pushTo : List UndoStackEntry) :
    Except String (UndoOutcome × Engine × List UndoStackEntry × List UndoStackEntry) :=
  match popFrom with
  | [] => .ok (.empty, e, [], pushTo)
  | entry :: popFrom =>
      let target := entry.op.target
      if e.tree.hasIdentifier target then do
        let shape ← reversal entry
        let (id, e) := e.mint
        match e.tree.nodeByIdentifier target with
        | none => .error "TypeError: Cannot read properties of undefined (reading 'deleted')"
        | some nodeBefore =>
            let inv := inverseOperation id shape.2 shape.1
            let e ← e.applyKind inv
            let e := e.markApplied inv.id
            let deletedAfter := match e.tree.nodeByIdentifier target with
              | some nodeAfter => nodeAfter.deleted
              | none => nodeBefore.deleted
            .ok (.applied inv, e, popFrom, ⟨inv, nodeBefore.deleted != deletedAfter⟩ :: pushTo)
      else .ok (.unavailable, e, popFrom, pushTo)

def undo (e : Engine) : Except String (UndoOutcome × Engine) := do
  let (outcome, e, undoStack, redoStack) ← e.stepUndoRedo e.undoStack e.redoStack
  .ok (outcome, { e with undoStack, redoStack })

def redo (e : Engine) : Except String (UndoOutcome × Engine) := do
  let (outcome, e, redoStack, undoStack) ← e.stepUndoRedo e.redoStack e.undoStack
  .ok (outcome, { e with undoStack, redoStack })

end Engine

end ConfluenceEditor
