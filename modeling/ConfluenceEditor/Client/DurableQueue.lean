/-
The durable queue.

The definitions follow the source: an unacknowledged queue writes through to a database of the browser
that all of its tabs share. Writes wait for a pause of `FLUSH_DEBOUNCE_MS` and are then handed over as one
transaction; transactions are executed in the order in which they were made, whole or not at all. A tab
that is gone leaves nothing behind but what was executed.
-/

import ConfluenceEditor.Client.SyncClient
import ConfluenceEditor.Library.Keyed

namespace ConfluenceEditor

/-! ### The database -/

/-- The key path `['documentId', 'stampR', 'stampC']`. -/
structure RowKey where
  documentId : String
  stampR : Nat
  stampC : Nat
  deriving DecidableEq, Repr

def RowKey.of (documentId : String) (id : Identifier) : RowKey := ⟨documentId, id.r, id.c⟩

/-- The order of the keys: their components, one after the other. -/
def RowKey.le (a b : RowKey) : Bool :=
  decide (a.documentId < b.documentId) || decide (a.documentId = b.documentId) &&
    (decide (a.stampR < b.stampR) || decide (a.stampR = b.stampR) && decide (a.stampC ≤ b.stampC))

/-- A row under the stamp of its operation. -/
structure UnackedRow where
  key : RowKey
  op : Operation
  stamped : key = .of key.documentId op.id

def UnackedRow.of (documentId : String) (op : Operation) : UnackedRow :=
  ⟨.of documentId op.id, op, rfl⟩

structure RejectedRow where
  key : RowKey
  op : Operation
  reason : RejectReason
  detail : String
  rejectedAt : Nat

structure QueueMeta where
  documentId : String
  lastServerSeq : Nat
  replicaId : Nat
  updatedAt : Nat
  deriving DecidableEq, Repr

structure Database where
  unacked : Keyed UnackedRow.key
  rejected : Keyed RejectedRow.key
  metas : Keyed QueueMeta.documentId

/-- A write that waits to be flushed; `deleteRejected` never waits, it has a transaction of its own. -/
inductive PendingWrite where
  | putUnacked (row : UnackedRow)
  | deleteUnacked (key : RowKey)
  | putRejected (row : RejectedRow)
  | deleteRejected (key : RowKey)
  | putMeta (row : QueueMeta)

namespace Database

def empty : Database := ⟨.empty, .empty, .empty⟩

def apply (db : Database) : PendingWrite → Database
  | .putUnacked row => { db with unacked := db.unacked.set row }
  | .deleteUnacked key => { db with unacked := db.unacked.delete key }
  | .putRejected row => { db with rejected := db.rejected.set row }
  | .deleteRejected key => { db with rejected := db.rejected.delete key }
  | .putMeta row => { db with metas := db.metas.set row }

/-- All rows in the order of their keys, of them the document's, in the order of their counters. -/
def loadUnacked (db : Database) (documentId : String) : List Operation :=
  let rows := db.unacked.entries.insertionSort fun a b => a.key.le b.key = true
  ((rows.filter fun row => row.key.documentId = documentId).insertionSort fun a b =>
    a.key.stampC ≤ b.key.stampC).map UnackedRow.op

def loadMeta (db : Database) (documentId : String) : Option QueueMeta := db.metas.get documentId

/-- The keys that `clearRejected` reads. -/
def rejectedKeys (db : Database) (documentId : String) : List RowKey :=
  (db.rejected.entries.map RejectedRow.key).filter fun key => key.documentId = documentId

end Database

/-! ### Tabs -/

def FLUSH_DEBOUNCE_MS : Nat := 200

/-- Where `beginConnect` is with the storage: it is read, attached to the queue, or not to be had. -/
inductive DurableInit where
  | reading
  | attached
  | unavailable
  deriving DecidableEq, Repr

/-- A transaction that the database has not executed yet. -/
inductive Transaction where
  | load
  | flush (batch : List PendingWrite)
  | readRejected
  | deleteRejected (keys : List RowKey)

/-- An open page: its queue in memory, and what it has not handed over. `flushTimer` is the time at which
the timer fires, and `lastServerSeq` what the metadata said. -/
structure Tab where
  documentId : String
  durable : DurableInit
  unacked : List Operation
  lastServerSeq : Option Nat
  pending : List PendingWrite
  flushTimer : Option Nat

/-- The calls that write through. -/
inductive QueueCall where
  | add (op : Operation)
  | ack (id : Identifier)
  | persistMeta (lastServerSeq replicaId : Nat)
  | preserveRejected (op : Operation) (reason : RejectReason) (detail : String)
  | discardRejected

namespace Tab

/-- The page of a document as it is opened. -/
def opened (documentId : String) : Tab := ⟨documentId, .reading, [], none, [], none⟩

/-- Every write sets the timer anew. -/
def schedule (t : Tab) (nowMs : Nat) (w : PendingWrite) : Tab :=
  { t with pending := t.pending ++ [w], flushTimer := some (nowMs + FLUSH_DEBOUNCE_MS) }

/-- What is pending becomes a transaction. -/
def flush (t : Tab) : Tab × List Transaction :=
  ({ t with pending := [], flushTimer := none },
    if t.pending.length = 0 then [] else [.flush t.pending])

def add (t : Tab) (nowMs : Nat) (op : Operation) : Tab × List Transaction :=
  let t := { t with unacked := UnackedQueue.add t.unacked op }
  if t.durable = .attached then (t.schedule nowMs (.putUnacked (.of t.documentId op)), []) else (t, [])

/-- The removal is handed over at once. -/
def ack (t : Tab) (nowMs : Nat) (id : Identifier) : Tab × List Transaction :=
  let (t, transactions) :=
    if t.durable = .attached then (t.schedule nowMs (.deleteUnacked (.of t.documentId id))).flush
    else (t, [])
  ({ t with unacked := UnackedQueue.ack t.unacked id }, transactions)

def persistMeta (t : Tab) (nowMs lastServerSeq replicaId : Nat) : Tab × List Transaction :=
  if t.durable = .attached then
    (t.schedule nowMs (.putMeta ⟨t.documentId, lastServerSeq, replicaId, nowMs⟩), [])
  else (t, [])

def preserveRejected (t : Tab) (nowMs : Nat) (op : Operation) (reason : RejectReason)
    (detail : String) : Tab × List Transaction :=
  if t.durable = .attached then
    (t.schedule nowMs (.putRejected ⟨.of t.documentId op.id, op, reason, detail, nowMs⟩), [])
  else (t, [])

/-- The keys are read first, and deleted in a second transaction. -/
def discardRejected (t : Tab) : Tab × List Transaction :=
  if t.durable = .attached then (t, [.readRejected]) else (t, [])

def call (t : Tab) (nowMs : Nat) : QueueCall → Tab × List Transaction
  | .add op => t.add nowMs op
  | .ack id => t.ack nowMs id
  | .persistMeta lastServerSeq replicaId => t.persistMeta nowMs lastServerSeq replicaId
  | .preserveRejected op reason detail => t.preserveRejected nowMs op reason detail
  | .discardRejected => t.discardRejected

/-- The end of `finishAsyncDurableInit`, with what the database gave back. -/
def restore (t : Tab) (db : Database) : Tab :=
  { t with
    unacked := (db.loadUnacked t.documentId).foldl UnackedQueue.add t.unacked
    lastServerSeq := (db.loadMeta t.documentId).map QueueMeta.lastServerSeq
    durable := .attached }

end Tab

/-! ### The browser -/

structure Profile where
  database : Database
  /-- The transactions in the order in which they were made, with the tab that made them. -/
  transactions : List (Nat × Transaction)
  tabs : Nat → Option Tab

/-- An event of the browser. Any transaction may be aborted, and any tab may be gone at any time. -/
inductive ProfileEvent where
  | opens (tab : Nat) (documentId : String)
  | unavailable (tab : Nat)
  | call (tab : Nat) (nowMs : Nat) (c : QueueCall)
  | timer (tab : Nat) (nowMs : Nat)
  | execute
  | abort
  | crash (tab : Nat)

/-- What cannot happen. -/
inductive ProfileHalt where
  | noTab
  | isOpen
  | notReading
  | reading
  | notDue
  | idle
  deriving DecidableEq, Repr

namespace Profile

def setTab (s : Profile) (id : Nat) (t : Option Tab) : Profile :=
  { s with tabs := fun i => if i = id then t else s.tabs i }

def submit (s : Profile) (id : Nat) (transactions : List Transaction) : Profile :=
  { s with transactions := s.transactions ++ transactions.map fun x => (id, x) }

/-- Transactions of a tab that is gone are not executed. -/
def forget (s : Profile) (id : Nat) : Profile :=
  { s with transactions := s.transactions.filter fun x => x.1 ≠ id }

/-- The result of a method of a tab. -/
def after (s : Profile) (id : Nat) (result : Tab × List Transaction) : Profile :=
  (s.setTab id (some result.1)).submit id result.2

/-- The oldest transaction is executed for its tab. -/
def executed (s : Profile) (id : Nat) (t : Tab) : Transaction → Profile
  | .load => s.setTab id (some (t.restore s.database))
  | .flush batch => { s with database := batch.foldl Database.apply s.database }
  | .readRejected =>
      let keys := s.database.rejectedKeys t.documentId
      if keys.length = 0 then s else s.submit id [.deleteRejected keys]
  | .deleteRejected keys =>
      { s with database := (keys.map .deleteRejected).foldl Database.apply s.database }

/-- The oldest transaction is given up. -/
def aborted (s : Profile) (id : Nat) (t : Tab) : Transaction → Profile
  | .load => s.setTab id (some { t with durable := .unavailable })
  | _ => s

def step (s : Profile) : ProfileEvent → Except ProfileHalt Profile
  | .opens id documentId =>
      if (s.tabs id).isSome then .error .isOpen
      else .ok ((s.setTab id (some (.opened documentId))).submit id [.load])
  | .unavailable id =>
      match s.tabs id with
      | none => .error .noTab
      | some t =>
          if t.durable = .reading then
            .ok ((s.setTab id (some { t with durable := .unavailable })).forget id)
          else .error .notReading
  | .call id nowMs c =>
      match s.tabs id with
      | none => .error .noTab
      | some t => if t.durable = .reading then .error .reading else .ok (s.after id (t.call nowMs c))
  | .timer id nowMs =>
      match s.tabs id with
      | none => .error .noTab
      | some t =>
          if t.flushTimer.any fun due => due ≤ nowMs then .ok (s.after id t.flush)
          else .error .notDue
  | .execute =>
      match s.transactions with
      | [] => .error .idle
      | (id, x) :: rest =>
          match s.tabs id with
          | none => .error .noTab
          | some t => .ok ({ s with transactions := rest }.executed id t x)
  | .abort =>
      match s.transactions with
      | [] => .error .idle
      | (id, x) :: rest =>
          match s.tabs id with
          | none => .error .noTab
          | some t => .ok ({ s with transactions := rest }.aborted id t x)
  | .crash id =>
      match s.tabs id with
      | none => .error .noTab
      | some _ => .ok ((s.setTab id none).forget id)

end Profile

end ConfluenceEditor
