/-
The vocabulary of the wire protocol that the server and the client share.
-/

import ConfluenceEditor.Engine.Operation

namespace ConfluenceEditor

open SidedForest (Side)

inductive SessionRole where
  | VIEWER
  | EDITOR
  | OWNER
  deriving DecidableEq, Repr

/-- Why operations were refused. -/
inductive RejectReason where
  | PERMISSION_DENIED
  | SESSION_EXPIRED
  | IDENTITY_MISMATCH
  | MALFORMED
  | RATE_LIMITED
  | OFFLINE_WINDOW_EXCEEDED
  | DOCUMENT_LOCKED
  deriving DecidableEq, Repr

/-- A message of operations. A run is text typed in one go, a batch the deletion of several nodes. -/
inductive OpsMessage where
  | opInsert (op : InsertOperation)
  | opInsertRun (firstId : Identifier) (firstParent : Option Identifier) (firstSide : Side)
      (bind : Bool) (values : List Nat)
  | opDelete (op : DeleteOperation)
  | opDeleteBatch (atFirst replica : Nat) (targets : List Identifier)
  | opUndelete (op : UndeleteOperation)
  deriving DecidableEq, Repr

/-- How a reconnecting client gets the document. -/
inductive SyncMode where
  | SNAPSHOT
  | CATCHUP
  | ALREADY_CURRENT
  deriving DecidableEq, Repr

/-- The first frame of a connection: what the client has, and its unacknowledged stamps. -/
structure HelloMessage where
  lastServerSeq : Nat
  unacked : List Identifier
  hasResidentEngine : Bool
  deriving DecidableEq, Repr

/-- The control messages of the server. -/
inductive ControlMessage where
  | welcome (replicaId : Nat) (role : SessionRole) (syncMode : SyncMode)
  | snapshot (seq : Nat) (nodes : List Node)
  | catchupBegin (totalOps : Nat)
  | catchupChunk (throughSeq : Nat) (ops : List Operation)
  | catchupEnd (toSeq : Nat)
  | alreadyHave (alreadyHave : List Identifier)
  | permissionChanged (role : Option SessionRole)
  deriving DecidableEq, Repr

/-- The frames of the server on the channel of operations, with decoded messages. -/
inductive OpsFrameMessage where
  | ops (seq : Nat) (ops : List Operation)
  | opAck (acks : List (Identifier × Nat))
  | opReject (rejects : List (Identifier × RejectReason)) (detail : String)
  deriving DecidableEq, Repr

/-- One insert for each character, on the right of the one before it. -/
def expandInsertRun (firstId : Identifier) (firstParent : Option Identifier) (firstSide : Side)
    (bind : Bool) : List Nat → List InsertOperation
  | [] => []
  | value :: values =>
      ⟨firstId, value, firstParent, firstSide, bind⟩ ::
        expandInsertRun ⟨firstId.c + 1, firstId.r⟩ (some firstId) .R bind values

/-- One delete for each target, under consecutive counters. -/
def expandDeleteBatch (atFirst replica : Nat) : List Identifier → List DeleteOperation
  | [] => []
  | target :: targets =>
      ⟨⟨atFirst, replica⟩, target⟩ :: expandDeleteBatch (atFirst + 1) replica targets

/-- The operations that a message stands for. -/
def toOperations : OpsMessage → List Operation
  | .opInsert op => [.insert op]
  | .opInsertRun firstId firstParent firstSide bind values =>
      (expandInsertRun firstId firstParent firstSide bind values).map .insert
  | .opDelete op => [.delete op]
  | .opDeleteBatch atFirst replica targets =>
      (expandDeleteBatch atFirst replica targets).map .delete
  | .opUndelete op => [.undelete op]

/-! ### The two shapes of a message -/

/-- Each operation is an insert under the one before it, the first one under `parent`. -/
def Chain : Option Identifier → List Operation → Prop
  | _, [] => True
  | parent, op :: ops =>
      op.dependency = parent ∧ op.insertedId = some op.id ∧ Chain (some op.id) ops

theorem chain_expandInsertRun (firstId : Identifier) (firstParent : Option Identifier)
    (firstSide : Side) (bind : Bool) (values : List Nat) :
    Chain firstParent
      ((expandInsertRun firstId firstParent firstSide bind values).map .insert) := by
  induction values generalizing firstId firstParent firstSide with
  | nil => trivial
  | cons value values ih => exact ⟨rfl, rfl, ih ..⟩

theorem Chain.insertedId {parent : Option Identifier} {ops : List Operation}
    (chain : Chain parent ops) : ∀ op ∈ ops, op.insertedId = some op.id := by
  induction ops generalizing parent with
  | nil => nofun
  | cons op ops ih =>
      intro x member
      rcases List.mem_cons.mp member with rfl | later
      · exact chain.2.1
      · exact ih chain.2.2 x later

/-- The deletes of a batch have ascending counters. -/
theorem counter_expandDeleteBatch {atFirst replica : Nat} {targets : List Identifier}
    {op : DeleteOperation} (member : op ∈ expandDeleteBatch atFirst replica targets) :
    atFirst ≤ op.id.c := by
  induction targets generalizing atFirst with
  | nil => cases member
  | cons target targets ih =>
      rcases List.mem_cons.mp member with rfl | later
      · exact Nat.le_refl _
      · exact Nat.le_of_succ_le (ih later)

theorem nodup_expandDeleteBatch (atFirst replica : Nat) (targets : List Identifier) :
    (expandDeleteBatch atFirst replica targets).Nodup := by
  induction targets generalizing atFirst with
  | nil => exact List.nodup_nil
  | cons target targets ih =>
      refine List.nodup_cons.mpr ⟨fun again => ?_, ih _⟩
      exact absurd (counter_expandDeleteBatch again) (Nat.not_succ_le_self _)

theorem counter_expandInsertRun {firstId : Identifier} {firstParent : Option Identifier}
    {firstSide : Side} {bind : Bool} {values : List Nat} {op : InsertOperation}
    (member : op ∈ expandInsertRun firstId firstParent firstSide bind values) :
    firstId.c ≤ op.id.c := by
  induction values generalizing firstId firstParent firstSide with
  | nil => cases member
  | cons value values ih =>
      rcases List.mem_cons.mp member with rfl | later
      · exact Nat.le_refl _
      · exact Nat.le_of_succ_le (ih later)

theorem nodup_expandInsertRun (firstId : Identifier) (firstParent : Option Identifier)
    (firstSide : Side) (bind : Bool) (values : List Nat) :
    (expandInsertRun firstId firstParent firstSide bind values).Nodup := by
  induction values generalizing firstId firstParent firstSide with
  | nil => exact List.nodup_nil
  | cons value values ih =>
      refine List.nodup_cons.mpr ⟨fun again => ?_, ih ..⟩
      exact absurd (counter_expandInsertRun again) (Nat.not_succ_le_self _)

/-- A message does not repeat an operation. -/
theorem nodup_toOperations (msg : OpsMessage) : (toOperations msg).Nodup := by
  cases msg with
  | opInsert op => exact List.nodup_singleton _
  | opInsertRun firstId firstParent firstSide bind values =>
      exact (nodup_expandInsertRun ..).map fun a b same => Operation.insert.inj same
  | opDelete op => exact List.nodup_singleton _
  | opUndelete op => exact List.nodup_singleton _
  | opDeleteBatch atFirst replica targets =>
      exact (nodup_expandDeleteBatch ..).map fun a b same => Operation.delete.inj same

theorem replica_expandInsertRun {firstId : Identifier} {firstParent : Option Identifier}
    {firstSide : Side} {bind : Bool} {values : List Nat} {op : InsertOperation}
    (member : op ∈ expandInsertRun firstId firstParent firstSide bind values) :
    op.id.r = firstId.r := by
  induction values generalizing firstId firstParent firstSide with
  | nil => cases member
  | cons value values ih =>
      rcases List.mem_cons.mp member with same | later
      · rw [same]
      · have stamped := ih later
        exact stamped

theorem replica_expandDeleteBatch {atFirst replica : Nat} {targets : List Identifier}
    {op : DeleteOperation} (member : op ∈ expandDeleteBatch atFirst replica targets) :
    op.id.r = replica := by
  induction targets generalizing atFirst with
  | nil => cases member
  | cons target targets ih =>
      rcases List.mem_cons.mp member with same | later
      · rw [same]
      · exact ih later

/-- The operations of a message are stamped by one replica. -/
theorem exists_replica_toOperations (msg : OpsMessage) :
    ∃ replica, ∀ op ∈ toOperations msg, op.id.r = replica := by
  cases msg with
  | opInsert op => exact ⟨op.id.r, fun x member => by rw [List.mem_singleton.mp member]; rfl⟩
  | opInsertRun firstId firstParent firstSide bind values =>
      refine ⟨firstId.r, fun x member => ?_⟩
      have ⟨op, inside, same⟩ := List.mem_map.mp member
      rw [← same]
      exact replica_expandInsertRun inside
  | opDelete op => exact ⟨op.id.r, fun x member => by rw [List.mem_singleton.mp member]; rfl⟩
  | opDeleteBatch atFirst replica targets =>
      refine ⟨replica, fun x member => ?_⟩
      have ⟨op, inside, same⟩ := List.mem_map.mp member
      rw [← same]
      exact replica_expandDeleteBatch inside
  | opUndelete op => exact ⟨op.id.r, fun x member => by rw [List.mem_singleton.mp member]; rfl⟩

/-- A message holds a chain of inserts, or nothing but deletes and undeletes. -/
theorem toOperations_shape (msg : OpsMessage) :
    (∃ parent, Chain parent (toOperations msg)) ∨
      ∀ op ∈ toOperations msg, op.insertedId = none := by
  cases msg with
  | opInsert op => exact Or.inl ⟨op.parent, rfl, rfl, trivial⟩
  | opInsertRun firstId firstParent firstSide bind values =>
      exact Or.inl ⟨firstParent, chain_expandInsertRun ..⟩
  | opDelete op => exact Or.inr fun x member => by rw [List.mem_singleton.mp member]; rfl
  | opUndelete op => exact Or.inr fun x member => by rw [List.mem_singleton.mp member]; rfl
  | opDeleteBatch atFirst replica targets =>
      refine Or.inr fun x member => ?_
      obtain ⟨op, -, rfl⟩ := List.mem_map.mp member
      rfl

end ConfluenceEditor
