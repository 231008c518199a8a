/-
Rows of the durable queue.

What the database holds for one document, and how each write and each call changes it: a write for one
document is not seen in another, a load finds the operations of the rows under their stamps, and a call
schedules the writes that do to the rows what the call does to the queue in memory
(`QueueCall.entries_queued`).
-/

import ConfluenceEditor.Client.DurableQueue
import Mathlib.Data.List.Find

namespace ConfluenceEditor

theorem RowKey.of_injective {d d' : String} {id id' : Identifier} (same : RowKey.of d id = .of d' id') :
    d = d' ∧ id = id' := by
  cases id
  cases id'
  obtain ⟨rfl, rfl, rfl⟩ := RowKey.mk.inj same
  exact ⟨rfl, rfl⟩

/-! ### Rows of a document -/

/-- What the database holds for one document. -/
@[ext] structure DocumentRows where
  unacked : Identifier → Option UnackedRow
  rejected : Identifier → Option RejectedRow
  queueMeta : Option QueueMeta

namespace Database

variable {db db' : Database} {d : String} {w : PendingWrite}

def rows (d : String) (db : Database) : DocumentRows :=
  ⟨fun id => db.unacked.get (.of d id), fun id => db.rejected.get (.of d id), db.metas.get d⟩

/-- The operation that a load of the document finds under a stamp. -/
def queued (d : String) (id : Identifier) (db : Database) : Option Operation :=
  (db.unacked.get (.of d id)).map UnackedRow.op

theorem queued_rows (same : db.rows d = db'.rows d) (id : Identifier) :
    db.queued d id = db'.queued d id := by
  have row := congrFun (congrArg DocumentRows.unacked same) id
  exact congrArg (Option.map UnackedRow.op) row

end Database

namespace PendingWrite

def documentId : PendingWrite → String
  | .putUnacked row => row.key.documentId
  | .deleteUnacked key => key.documentId
  | .putRejected row => row.key.documentId
  | .deleteRejected key => key.documentId
  | .putMeta row => row.documentId

/-- A write of the queue's record of an operation. -/
def concerns (d : String) (id : Identifier) : PendingWrite → Prop
  | .putUnacked row => row.key = .of d id
  | .deleteUnacked key => key = .of d id
  | _ => False

end PendingWrite

namespace Database

variable {db db' : Database} {d : String} {w : PendingWrite}

theorem of_ne {d : String} {key : RowKey} (other : key.documentId ≠ d) (id : Identifier) :
    key ≠ .of d id := fun same => other (congrArg RowKey.documentId same)

/-- Writes for one document are not seen in another. -/
theorem rows_apply_other (other : w.documentId ≠ d) (db : Database) :
    (db.apply w).rows d = db.rows d := by
  cases w with
  | putUnacked row =>
      refine DocumentRows.ext (funext fun id => ?_) rfl rfl
      exact Keyed.get_set.trans (if_neg (of_ne other id))
  | deleteUnacked key =>
      refine DocumentRows.ext (funext fun id => ?_) rfl rfl
      exact Keyed.get_delete.trans (if_neg (of_ne other id))
  | putRejected row =>
      refine DocumentRows.ext rfl (funext fun id => ?_) rfl
      exact Keyed.get_set.trans (if_neg (of_ne other id))
  | deleteRejected key =>
      refine DocumentRows.ext rfl (funext fun id => ?_) rfl
      exact Keyed.get_delete.trans (if_neg (of_ne other id))
  | putMeta row =>
      refine DocumentRows.ext rfl rfl ?_
      exact Keyed.get_set.trans (if_neg other)

/-- A write sees of a document nothing but its rows. -/
theorem rows_apply_congr (same : db.rows d = db'.rows d) (w : PendingWrite) :
    (db.apply w).rows d = (db'.apply w).rows d := by
  have unacked := congrFun (congrArg DocumentRows.unacked same)
  have rejected := congrFun (congrArg DocumentRows.rejected same)
  have metas := congrArg DocumentRows.queueMeta same
  cases w with
  | putUnacked row =>
      refine DocumentRows.ext (funext fun id => ?_) (funext rejected) metas
      exact Keyed.get_set.trans ((congrArg _ (unacked id)).trans Keyed.get_set.symm)
  | deleteUnacked key =>
      refine DocumentRows.ext (funext fun id => ?_) (funext rejected) metas
      exact Keyed.get_delete.trans ((congrArg _ (unacked id)).trans Keyed.get_delete.symm)
  | putRejected row =>
      refine DocumentRows.ext (funext unacked) (funext fun id => ?_) metas
      exact Keyed.get_set.trans ((congrArg _ (rejected id)).trans Keyed.get_set.symm)
  | deleteRejected key =>
      refine DocumentRows.ext (funext unacked) (funext fun id => ?_) metas
      exact Keyed.get_delete.trans ((congrArg _ (rejected id)).trans Keyed.get_delete.symm)
  | putMeta row =>
      refine DocumentRows.ext (funext unacked) (funext rejected) ?_
      exact Keyed.get_set.trans ((congrArg _ metas).trans Keyed.get_set.symm)

/-- What a write makes of the record of an operation. -/
theorem queued_apply_silent {id : Identifier} (silent : ¬ w.concerns d id) (db : Database) :
    (db.apply w).queued d id = db.queued d id := by
  cases w with
  | putUnacked row => exact congrArg (Option.map UnackedRow.op) (Keyed.get_set.trans (if_neg silent))
  | deleteUnacked key => exact congrArg (Option.map UnackedRow.op) (Keyed.get_delete.trans (if_neg silent))
  | putRejected row => rfl
  | deleteRejected key => rfl
  | putMeta row => rfl

theorem queued_apply_congr {id : Identifier} (same : db.queued d id = db'.queued d id)
    (w : PendingWrite) : (db.apply w).queued d id = (db'.apply w).queued d id := by
  by_cases silent : w.concerns d id
  · cases w with
    | putUnacked row =>
        refine congrArg (Option.map UnackedRow.op) ?_
        exact (Keyed.get_set.trans (if_pos silent)).trans (Keyed.get_set.trans (if_pos silent)).symm
    | deleteUnacked key =>
        refine congrArg (Option.map UnackedRow.op) ?_
        exact (Keyed.get_delete.trans (if_pos silent)).trans
          (Keyed.get_delete.trans (if_pos silent)).symm
    | putRejected row => exact silent.elim
    | deleteRejected key => exact silent.elim
    | putMeta row => exact silent.elim
  · rw [queued_apply_silent silent, queued_apply_silent silent, same]

end Database

/-! ### The queue in memory -/

namespace UnackedQueue

variable {entries ops : List Operation} {op : Operation} {id : Identifier}

theorem get_add (entries : List Operation) (op : Operation) (id : Identifier) :
    get (add entries op) id = if op.id = id then some op else get entries id := by
  rw [add, setEntry, get]
  by_cases known : (entries.any fun o => o.id = op.id) = true
  · rw [if_pos known, List.find?_map]
    by_cases here : op.id = id
    · obtain ⟨o, member, same⟩ := List.any_eq_true.mp known
      have found : (entries.find? ((fun o : Operation => decide (o.id = id)) ∘
          fun o => if o.id = op.id then op else o)).isSome = true := by
        refine List.find?_isSome.mpr ⟨o, member, ?_⟩
        rw [Function.comp_apply, if_pos (of_decide_eq_true same), decide_eq_true_eq]
        exact here
      obtain ⟨o', found⟩ := Option.isSome_iff_exists.mp found
      have named := List.find?_some found
      rw [Function.comp_apply, decide_eq_true_eq] at named
      rw [found, if_pos here, Option.map_some]
      split at named
      · rw [if_pos ‹_›]
      · exact absurd (named.trans here.symm) ‹_›
    · rw [if_neg here, get]
      have agree : ∀ o ∈ entries, ((fun o : Operation => decide (o.id = id)) ∘
          fun o => if o.id = op.id then op else o) o = decide (o.id = id) := fun o _ => by
        rw [Function.comp_apply]
        by_cases same : o.id = op.id
        · rw [if_pos same, same]
        · rw [if_neg same]
      rw [List.find?_congr agree]
      cases found : entries.find? fun o => o.id = id with
      | none => rfl
      | some o =>
          have named : o.id = id := of_decide_eq_true
            (List.find?_some (p := fun o : Operation => decide (o.id = id)) found)
          rw [Option.map_some, if_neg fun same => here (same.symm.trans named)]
  · rw [if_neg known, List.find?_append]
    have absent : ∀ o ∈ entries, ¬ o.id = op.id := fun o member same =>
      known (List.any_eq_true.mpr ⟨o, member, decide_eq_true same⟩)
    by_cases here : op.id = id
    · have none : (entries.find? fun o => o.id = id) = none := List.find?_eq_none.mpr fun o member => by
        rw [decide_eq_true_eq, ← here]
        exact absent o member
      have last : ([op].find? fun o => o.id = id) = some op :=
        List.find?_cons_of_pos (decide_eq_true here)
      rw [none, last, if_pos here, Option.none_or]
    · have last : ([op].find? fun o => o.id = id) = none := by
        rw [List.find?_cons_of_neg (by rwa [decide_eq_true_eq]), List.find?_nil]
      rw [last, if_neg here, Option.or_none, get]

theorem get_ack (entries : List Operation) (acked id : Identifier) :
    get (ack entries acked) id = if acked = id then none else get entries id := by
  rw [ack, get, List.find?_filter]
  by_cases here : acked = id
  · rw [if_pos here]
    refine List.find?_eq_none.mpr fun o _ => ?_
    rw [decide_eq_true_eq, decide_eq_true_eq, decide_eq_true_eq, here]
    exact fun both => both.1 both.2
  · rw [if_neg here, get]
    refine List.find?_congr fun o _ => ?_
    rw [Bool.eq_iff_iff, decide_eq_true_eq, decide_eq_true_eq, decide_eq_true_eq]
    exact ⟨And.right, fun same => ⟨fun other => here (other.symm.trans same), same⟩⟩

/-- Operations with new stamps go to the end. -/
theorem foldl_add (distinct : ((entries ++ ops).map Operation.id).Nodup) :
    ops.foldl add entries = entries ++ ops := by
  induction ops generalizing entries with
  | nil => exact (List.append_nil _).symm
  | cons op ops ih =>
      have whole : entries ++ op :: ops = (entries ++ [op]) ++ ops :=
        (List.append_assoc entries [op] ops).symm
      have absent : ¬ (entries.any fun o => o.id = op.id) = true := fun known => by
        obtain ⟨o, member, same⟩ := List.any_eq_true.mp known
        rw [List.map_append, List.map_cons] at distinct
        have apart := (List.nodup_append.mp distinct).2.2 o.id (List.mem_map_of_mem member) op.id
          List.mem_cons_self
        exact apart (of_decide_eq_true same)
      have appended : add entries op = entries ++ [op] := if_neg absent
      rw [List.foldl_cons, appended, ih (whole ▸ distinct), whole]

theorem get_eq_some (distinct : (ops.map Operation.id).Nodup) :
    get ops id = some op ↔ op ∈ ops ∧ op.id = id := by
  constructor
  · intro found
    have named : decide (op.id = id) = true :=
      List.find?_some (p := fun o : Operation => decide (o.id = id)) found
    exact ⟨List.mem_of_find?_eq_some found, of_decide_eq_true named⟩
  · rintro ⟨member, named⟩
    cases found : get ops id with
    | none =>
        have other := List.find?_eq_none.mp found op member
        exact absurd (decide_eq_true named) other
    | some o =>
        have same : o.id = id := of_decide_eq_true
          (List.find?_some (p := fun o : Operation => decide (o.id = id)) found)
        rw [List.inj_on_of_nodup_map distinct (List.mem_of_find?_eq_some found) member
          (same.trans named.symm)]

end UnackedQueue

namespace Database

variable {db : Database} {d : String}

theorem mem_loadUnacked {op : Operation} :
    op ∈ db.loadUnacked d ↔ ∃ row ∈ db.unacked, row.key.documentId = d ∧ row.op = op := by
  rw [loadUnacked, List.mem_map]
  constructor
  · rintro ⟨row, member, same⟩
    have ⟨inside, here⟩ := List.mem_filter.mp ((List.mem_insertionSort _).mp member)
    exact ⟨row, (List.mem_insertionSort _).mp inside, of_decide_eq_true here, same⟩
  · rintro ⟨row, inside, here, same⟩
    refine ⟨row, (List.mem_insertionSort _).mpr (List.mem_filter.mpr ⟨?_, decide_eq_true here⟩), same⟩
    exact (List.mem_insertionSort _).mpr inside

/-- The stamps of a load are distinct. -/
theorem loadUnacked_distinct : ((db.loadUnacked d).map Operation.id).Nodup := by
  have stored : ((db.unacked.entries.filter fun row => row.key.documentId = d).map
      UnackedRow.key).Nodup := db.unacked.distinct.sublist (List.filter_sublist.map _)
  have keys : ((db.loadUnacked d).map fun op => RowKey.of d op.id).Perm
      ((db.unacked.entries.filter fun row => row.key.documentId = d).map UnackedRow.key) := by
    have same : (db.loadUnacked d).map (fun op => RowKey.of d op.id) =
        (((db.unacked.entries.insertionSort fun a b => a.key.le b.key = true).filter
          fun row => row.key.documentId = d).insertionSort fun a b =>
            a.key.stampC ≤ b.key.stampC).map UnackedRow.key := by
      rw [loadUnacked, List.map_map]
      refine List.map_congr_left fun row member => ?_
      have ⟨_, here⟩ := List.mem_filter.mp ((List.mem_insertionSort _).mp member)
      rw [Function.comp_apply, row.stamped, ← of_decide_eq_true here]
    rw [same]
    refine (List.perm_insertionSort _ _).map _ |>.trans (List.Perm.map _ (List.Perm.filter _ ?_))
    exact List.perm_insertionSort _ _
  have distinct := keys.nodup_iff.mpr stored
  refine List.Nodup.of_map (RowKey.of d) ?_
  rwa [List.map_map]

/-- What is loaded is what the database holds. -/
theorem get_loadUnacked (id : Identifier) : UnackedQueue.get (db.loadUnacked d) id = db.queued d id := by
  refine Option.ext fun op => ?_
  rw [UnackedQueue.get_eq_some loadUnacked_distinct, mem_loadUnacked, queued, Option.map_eq_some_iff]
  constructor
  · rintro ⟨⟨row, member, here, same⟩, named⟩
    refine ⟨row, Keyed.get_eq_some.mpr ⟨member, ?_⟩, same⟩
    rw [row.stamped, here, same, named]
  · rintro ⟨row, found, same⟩
    have ⟨member, key⟩ := Keyed.get_eq_some.mp found
    have here : row.key.documentId = d := by
      rw [key]
      rfl
    refine ⟨⟨row, member, here, same⟩, ?_⟩
    have stamped := row.stamped
    rw [key] at stamped
    rw [← same]
    exact (RowKey.of_injective stamped).2.symm

end Database

/-! ### What a call schedules -/

/-- The writes of a transaction. -/
def Transaction.writes : Transaction → List PendingWrite
  | .flush batch => batch
  | .deleteRejected keys => keys.map .deleteRejected
  | .load | .readRejected => []

/-- What a call makes of the queue in memory. -/
def QueueCall.entries (entries : List Operation) : QueueCall → List Operation
  | .add op => UnackedQueue.add entries op
  | .ack id => UnackedQueue.ack entries id
  | _ => entries

/-- The writes that a call schedules for a document. -/
def QueueCall.writes (documentId : String) (nowMs : Nat) : QueueCall → List PendingWrite
  | .add op => [.putUnacked (.of documentId op)]
  | .ack id => [.deleteUnacked (.of documentId id)]
  | .persistMeta lastServerSeq replicaId => [.putMeta ⟨documentId, lastServerSeq, replicaId, nowMs⟩]
  | .preserveRejected op reason detail =>
      [.putRejected ⟨.of documentId op.id, op, reason, detail, nowMs⟩]
  | .discardRejected => []

namespace Tab

variable {t : Tab} {nowMs : Nat}

def scheduled (t : Tab) (nowMs : Nat) (c : QueueCall) : List PendingWrite :=
  if t.durable = .attached then c.writes t.documentId nowMs else []

/-- The timer is set as long as something is pending. -/
def Timed (t : Tab) : Prop := t.flushTimer.isSome = true ↔ t.pending ≠ []

/-- A method hands over or keeps what was pending and what it schedules, in this order. -/
structure Schedules (t : Tab) (ws : List PendingWrite) (result : Tab × List Transaction) : Prop where
  documentId : result.1.documentId = t.documentId
  durable : result.1.durable = t.durable
  moved : result.2.flatMap Transaction.writes ++ result.1.pending = t.pending ++ ws
  timed : t.Timed → result.1.Timed
  noLoad : Transaction.load ∉ result.2
  detached : t.durable ≠ .attached → result.2 = []

theorem schedule_timed (w : PendingWrite) : (t.schedule nowMs w).Timed :=
  ⟨fun _ => List.append_ne_nil_of_right_ne_nil _ (List.cons_ne_nil _ _), fun _ => rfl⟩

theorem schedule_schedules (attached : t.durable = .attached) (nowMs : Nat) (w : PendingWrite) :
    t.Schedules [w] (t.schedule nowMs w, []) :=
  ⟨rfl, rfl, rfl, fun _ => schedule_timed w, List.not_mem_nil, fun other => absurd attached other⟩

theorem flush_schedules (idle : t.durable ≠ .attached → t.pending = []) : t.Schedules [] t.flush := by
  refine ⟨rfl, rfl, ?_, fun _ => ⟨fun timer => (Bool.false_ne_true timer).elim,
    fun pending => absurd rfl pending⟩, ?_, fun other => ?_⟩
  · rw [flush]
    by_cases none : t.pending.length = 0
    · rw [if_pos none, List.length_eq_zero_iff.mp none]
      rfl
    · rw [if_neg none, List.flatMap_singleton]
      rfl
  · rw [flush]
    by_cases none : t.pending.length = 0
    · rw [if_pos none]
      exact List.not_mem_nil
    · rw [if_neg none, List.mem_singleton]
      exact Transaction.noConfusion
  · rw [flush, if_pos (List.length_eq_zero_iff.mpr (idle other))]

theorem call_schedules (t : Tab) (nowMs : Nat) (c : QueueCall) :
    t.Schedules (t.scheduled nowMs c) (t.call nowMs c) ∧
      (t.call nowMs c).1.unacked = c.entries t.unacked := by
  have nothing : ∀ t' : Tab, t'.documentId = t.documentId → t'.durable = t.durable →
      t'.pending = t.pending → t'.flushTimer = t.flushTimer → t.Schedules [] (t', []) :=
    fun t' documentId durable pending timer => by
      refine ⟨documentId, durable, ?_, fun timed => ?_, List.not_mem_nil, fun _ => rfl⟩
      · rw [pending, List.append_nil]
        rfl
      · rw [Timed, pending, timer]
        exact timed
  rw [scheduled]
  by_cases attached : t.durable = .attached
  · rw [if_pos attached]
    have free : ∀ unacked, Tab.durable { t with unacked } = .attached := fun _ => attached
    cases c with
    | add op =>
        rw [call, add, if_pos (free _)]
        have ⟨documentId, durable, moved, timed, noLoad, detached⟩ := schedule_schedules
          (free (UnackedQueue.add t.unacked op)) nowMs (.putUnacked (.of t.documentId op))
        exact ⟨⟨documentId, durable, moved, timed, noLoad, detached⟩, rfl⟩
    | ack id =>
        rw [call, ack, if_pos attached]
        set w : PendingWrite := .deleteUnacked (.of t.documentId id) with hw
        have waits : ¬ (t.schedule nowMs w).pending.length = 0 := fun none =>
          List.append_ne_nil_of_right_ne_nil _ (List.cons_ne_nil w []) (List.length_eq_zero_iff.mp none)
        have ⟨documentId, durable, moved, timed, noLoad, _⟩ :=
          flush_schedules (t := t.schedule nowMs w) fun other => absurd attached other
        refine ⟨⟨documentId, durable, ?_, fun _ => timed (schedule_timed w), noLoad,
          fun other => absurd attached other⟩, rfl⟩
        rw [List.append_nil] at moved
        exact moved
    | persistMeta lastServerSeq replicaId =>
        rw [call, persistMeta, if_pos attached]
        exact ⟨schedule_schedules attached nowMs _, rfl⟩
    | preserveRejected op reason detail =>
        rw [call, preserveRejected, if_pos attached]
        exact ⟨schedule_schedules attached nowMs _, rfl⟩
    | discardRejected =>
        rw [call, discardRejected, if_pos attached]
        refine ⟨⟨rfl, rfl, (List.append_nil _).symm, fun timed => timed, ?_,
          fun other => absurd attached other⟩, rfl⟩
        rw [List.mem_singleton]
        exact Transaction.noConfusion
  · rw [if_neg attached]
    cases c with
    | add op =>
        rw [call, add, if_neg attached]
        exact ⟨nothing _ rfl rfl rfl rfl, rfl⟩
    | ack id =>
        rw [call, ack, if_neg attached]
        exact ⟨nothing _ rfl rfl rfl rfl, rfl⟩
    | persistMeta lastServerSeq replicaId =>
        rw [call, persistMeta, if_neg attached]
        exact ⟨nothing _ rfl rfl rfl rfl, rfl⟩
    | preserveRejected op reason detail =>
        rw [call, preserveRejected, if_neg attached]
        exact ⟨nothing _ rfl rfl rfl rfl, rfl⟩
    | discardRejected =>
        rw [call, discardRejected, if_neg attached]
        exact ⟨nothing _ rfl rfl rfl rfl, rfl⟩

/-- A call schedules writes for the tab's own document. -/
theorem scheduled_documentId {c : QueueCall} {w : PendingWrite} (member : w ∈ t.scheduled nowMs c) :
    w.documentId = t.documentId := by
  rw [scheduled] at member
  split at member
  · cases c with
    | discardRejected => cases member
    | _ =>
        rw [List.mem_singleton.mp member]
        rfl
  · cases member

end Tab

/-- What is scheduled makes of the database what the call makes of the queue. -/
theorem QueueCall.entries_queued {entries : List Operation} {db : Database} {d : String}
    (same : ∀ id, UnackedQueue.get entries id = db.queued d id) (c : QueueCall) (nowMs : Nat)
    (id : Identifier) : UnackedQueue.get (c.entries entries) id =
      ((c.writes d nowMs).foldl Database.apply db).queued d id := by
  cases c with
  | add op =>
      have stored : (db.apply (.putUnacked (.of d op))).queued d id =
          (if RowKey.of d op.id = .of d id then some (UnackedRow.of d op)
            else db.unacked.get (.of d id)).map UnackedRow.op :=
        congrArg (Option.map UnackedRow.op) Keyed.get_set
      rw [QueueCall.entries, UnackedQueue.get_add, QueueCall.writes, List.foldl_cons, List.foldl_nil,
        stored]
      by_cases here : op.id = id
      · rw [if_pos here, if_pos (congrArg (RowKey.of d) here)]
        rfl
      · rw [if_neg here, if_neg fun keys => here (RowKey.of_injective keys).2]
        exact same id
  | ack acked =>
      have stored : (db.apply (.deleteUnacked (.of d acked))).queued d id =
          (if RowKey.of d acked = .of d id then none else db.unacked.get (.of d id)).map
            UnackedRow.op := congrArg (Option.map UnackedRow.op) Keyed.get_delete
      rw [QueueCall.entries, UnackedQueue.get_ack, QueueCall.writes, List.foldl_cons, List.foldl_nil,
        stored]
      by_cases here : acked = id
      · rw [if_pos here, if_pos (congrArg (RowKey.of d) here)]
        rfl
      · rw [if_neg here, if_neg fun keys => here (RowKey.of_injective keys).2]
        exact same id
  | persistMeta lastServerSeq replicaId => exact same id
  | preserveRejected op reason detail => exact same id
  | discardRejected => exact same id

end ConfluenceEditor
