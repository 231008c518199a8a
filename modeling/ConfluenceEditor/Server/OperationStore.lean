/-
The durable store of one document.

The tables are lists in the order of their primary keys, so a query `ORDER BY seq` is a filter. An
operation row is refused when its sequence number or its stamp is already taken; `commitOperations`
skips a refused row and goes on, which is how a resent operation is recognised. A transaction is one
step: it is stored whole or not at all.
-/

import ConfluenceEditor.Engine.Operation
import Mathlib.Data.List.Sort

namespace ConfluenceEditor

/-- A row of the operations table; the stamp is the operation's identifier. -/
structure OperationRow where
  seq : Nat
  op : Operation
  committedAtMs : Nat
  deriving DecidableEq, Repr

/-- A row of the snapshots table; `nodes` is its decoded structure. -/
structure SnapshotRow where
  seq : Nat
  content : List Nat
  nodes : List Node
  deriving DecidableEq, Repr

structure Store where
  documentId : String
  operations : List OperationRow
  snapshots : List SnapshotRow
  currentSeq : Nat
  deriving DecidableEq, Repr

structure WarmStartResult where
  snapshotNodes : Option (List Node)
  snapshotSeq : Nat
  suffixOps : List OperationRow
  currentSeq : Nat

namespace Store

/-- A document that was just created. -/
def empty (documentId : String) : Store := ⟨documentId, [], [], 0⟩

/-- The stamp has a durable row. -/
def Durable (s : Store) (stamp : Identifier) : Prop := ∃ row ∈ s.operations, row.op.id = stamp

instance (s : Store) (stamp : Identifier) : Decidable (s.Durable stamp) :=
  inferInstanceAs (Decidable (∃ row ∈ s.operations, _))

/-- Insert a row unless its primary key or its stamp is taken. -/
def insertOperation (s : Store) (row : OperationRow) : Option Store :=
  if s.operations.any fun r => r.seq = row.seq || r.op.id = row.op.id then none
  else some { s with operations := s.operations.orderedInsert (fun a b => a.seq ≤ b.seq) row }

/-- The rows of one transaction; the number of rows that were inserted. -/
def insertAll (s : Store) (seq : Nat) (committedAtMs : Nat) : List Operation → Nat × Store
  | [] => (0, s)
  | op :: ops =>
      match s.insertOperation ⟨seq, op, committedAtMs⟩ with
      | some s' =>
          let (insertedCount, s') := s'.insertAll (seq + 1) committedAtMs ops
          (insertedCount + 1, s')
      | none => s.insertAll (seq + 1) committedAtMs ops

/-- A committed transaction. -/
def commitOperations (s : Store) (startSeq : Nat) (ops : List Operation) (committedAtMs : Nat) :
    Nat × Store :=
  if ops = [] then (0, s)
  else
    let (insertedCount, s) := s.insertAll startSeq committedAtMs ops
    (insertedCount, { s with currentSeq := max s.currentSeq (startSeq + ops.length - 1) })

/-- The newest snapshot comes first. A second snapshot with the same sequence number violates the
primary key. -/
def writeSnapshot (s : Store) (row : SnapshotRow) : Option Store :=
  if s.snapshots.any fun r => r.seq = row.seq then none
  else some { s with snapshots := s.snapshots.orderedInsert (fun a b => b.seq ≤ a.seq) row }

def latestSnapshot (s : Store) : Option SnapshotRow := s.snapshots.head?

def snapshotSeq (s : Store) : Nat :=
  match s.latestSnapshot with
  | some row => row.seq
  | none => 0

/-- The newest snapshot and the operations after it. -/
def warmStart (s : Store) : WarmStartResult where
  snapshotNodes := s.latestSnapshot.map SnapshotRow.nodes
  snapshotSeq := s.snapshotSeq
  suffixOps := s.operations.filter fun row => s.snapshotSeq < row.seq
  currentSeq := s.currentSeq

def loadOperationLogRange (s : Store) (fromSeqExclusive toSeqInclusive : Nat) :
    List OperationRow :=
  s.operations.filter fun row => fromSeqExclusive < row.seq && row.seq ≤ toSeqInclusive

def findExistingStamps (s : Store) (stamps : List Identifier) : List Identifier :=
  (s.operations.filter fun row => row.op.id ∈ stamps).map fun row => row.op.id

/-! ### What a transaction does to the rows -/

/-- Both tables are in the order of their primary keys, and no stamp occurs twice. -/
structure WF (s : Store) : Prop where
  ascending : s.operations.Pairwise fun a b => a.seq < b.seq
  stamps : (s.operations.map fun row => row.op.id).Nodup
  numbered : ∀ row ∈ s.operations, 0 < row.seq ∧ row.seq ≤ s.currentSeq
  descending : s.snapshots.Pairwise fun a b => b.seq < a.seq

theorem wf_empty (documentId : String) : (empty documentId).WF :=
  ⟨List.Pairwise.nil, List.nodup_nil, fun _ member => (nomatch member), List.Pairwise.nil⟩

variable {s s' : Store}

theorem durable_iff {stamp : Identifier} :
    s.Durable stamp ↔ stamp ∈ s.operations.map fun row => row.op.id := by
  rw [List.mem_map]
  exact Iff.rfl

theorem orderedInsert_last {rows : List OperationRow} {row : OperationRow}
    (below : ∀ r ∈ rows, r.seq < row.seq) :
    rows.orderedInsert (fun a b => a.seq ≤ b.seq) row = rows ++ [row] := by
  induction rows with
  | nil => rfl
  | cons r rows ih =>
      have less : ¬ row.seq ≤ r.seq := Nat.not_le_of_lt (below r List.mem_cons_self)
      rw [List.orderedInsert_cons, if_neg less,
        ih fun x member => below x (List.mem_cons_of_mem _ member), List.cons_append]

/-- Above all other rows, a row is appended unless its stamp is taken. -/
theorem insertOperation_cases (row : OperationRow) (below : ∀ r ∈ s.operations, r.seq < row.seq) :
    (s.Durable row.op.id ∧ s.insertOperation row = none) ∨
    (¬ s.Durable row.op.id ∧
      s.insertOperation row = some { s with operations := s.operations ++ [row] }) := by
  have taken_iff : (s.operations.any fun r => r.seq = row.seq || r.op.id = row.op.id) = true ↔
      s.Durable row.op.id := by
    rw [List.any_eq_true]
    constructor
    · rintro ⟨r, member, same⟩
      rw [Bool.or_eq_true, decide_eq_true_iff, decide_eq_true_iff] at same
      exact ⟨r, member, same.resolve_left (Nat.ne_of_lt (below r member))⟩
    · rintro ⟨r, member, same⟩
      exact ⟨r, member, by simp [same]⟩
  rw [insertOperation, orderedInsert_last below]
  by_cases durable : s.Durable row.op.id
  · exact Or.inl ⟨durable, if_pos (taken_iff.mpr durable)⟩
  · exact Or.inr ⟨durable, if_neg fun taken => durable (taken_iff.mp taken)⟩

/-- The rows that a transaction above all other rows has added. -/
structure Appended (s s' : Store) (seq : Nat) (ops : List Operation) (new : List OperationRow) :
    Prop where
  documentId : s'.documentId = s.documentId
  snapshots : s'.snapshots = s.snapshots
  operations : s'.operations = s.operations ++ new
  place : ∀ row ∈ new, ∃ k, ops[k]? = some row.op ∧ row.seq = seq + k
  fresh : ∀ row ∈ new, ¬ s.Durable row.op.id
  ascending : new.Pairwise fun a b => a.seq < b.seq
  stamps : (new.map fun row => row.op.id).Nodup
  durable : ∀ op ∈ ops, s'.Durable op.id

theorem insertAll_spec (s : Store) (seq committedAtMs : Nat) (ops : List Operation)
    (below : ∀ row ∈ s.operations, row.seq < seq) :
    ∃ new, Appended s (s.insertAll seq committedAtMs ops).2 seq ops new ∧
      (s.insertAll seq committedAtMs ops).2.currentSeq = s.currentSeq := by
  induction ops generalizing s seq with
  | nil =>
      exact ⟨[], ⟨rfl, rfl, (List.append_nil _).symm, fun _ member => (nomatch member),
        fun _ member => (nomatch member), List.Pairwise.nil, List.nodup_nil,
        fun _ member => (nomatch member)⟩, rfl⟩
  | cons op ops ih =>
      rw [insertAll]
      rcases insertOperation_cases ⟨seq, op, committedAtMs⟩ below with
        ⟨taken, refused⟩ | ⟨free, inserted⟩
      · rw [refused]
        obtain ⟨new, spec, sameSeq⟩ := ih s (seq + 1) fun row member =>
          Nat.lt_succ_of_lt (below row member)
        refine ⟨new, ⟨spec.documentId, spec.snapshots, spec.operations, fun row member => ?_, spec.fresh,
          spec.ascending, spec.stamps, fun x member => ?_⟩, sameSeq⟩
        · obtain ⟨k, named, place⟩ := spec.place row member
          exact ⟨k + 1, named, by omega⟩
        · rcases List.mem_cons.mp member with rfl | later
          · obtain ⟨r, known, same⟩ := taken
            exact ⟨r, by rw [spec.operations]; exact List.mem_append_left _ known, same⟩
          · exact spec.durable x later
      · rw [inserted]
        obtain ⟨new, spec, sameSeq⟩ := ih { s with
          operations := s.operations ++ [⟨seq, op, committedAtMs⟩] } (seq + 1) (by
            intro row member
            rcases List.mem_append.mp member with old | last
            · exact Nat.lt_succ_of_lt (below row old)
            · rw [List.mem_singleton.mp last]
              exact Nat.lt_succ_self seq)
        have first : ∀ row ∈ new, row.op.id ≠ op.id := fun row member same =>
          spec.fresh row member ⟨⟨seq, op, committedAtMs⟩, by simp, same.symm⟩
        refine ⟨⟨seq, op, committedAtMs⟩ :: new, ⟨spec.documentId, spec.snapshots,
          spec.operations.trans (List.append_cons ..).symm, fun row member => ?_,
          fun row member => ?_, List.pairwise_cons.mpr ⟨fun row member => ?_, spec.ascending⟩,
          List.nodup_cons.mpr ⟨fun inside => ?_, spec.stamps⟩, fun x member => ?_⟩, sameSeq⟩
        · rcases List.mem_cons.mp member with rfl | later
          · exact ⟨0, rfl, rfl⟩
          · obtain ⟨k, named, place⟩ := spec.place row later
            exact ⟨k + 1, named, by omega⟩
        · rcases List.mem_cons.mp member with rfl | later
          · exact free
          · rintro ⟨r, known, same⟩
            exact spec.fresh row later ⟨r, List.mem_append_left _ known, same⟩
        · obtain ⟨k, -, place⟩ := spec.place row member
          simp only
          omega
        · obtain ⟨row, member, same⟩ := List.mem_map.mp inside
          exact first row member same
        · rcases List.mem_cons.mp member with rfl | later
          · exact ⟨⟨seq, x, committedAtMs⟩, by rw [spec.operations]; simp, rfl⟩
          · exact spec.durable x later

theorem commitOperations_spec (s : Store) (startSeq committedAtMs : Nat) (ops : List Operation)
    (nonempty : ops ≠ []) (below : ∀ row ∈ s.operations, row.seq < startSeq) :
    ∃ new, Appended s (s.commitOperations startSeq ops committedAtMs).2 startSeq ops new ∧
      (s.commitOperations startSeq ops committedAtMs).2.currentSeq =
        max s.currentSeq (startSeq + ops.length - 1) := by
  obtain ⟨new, spec, sameSeq⟩ := insertAll_spec s startSeq committedAtMs ops below
  rw [commitOperations, if_neg nonempty]
  exact ⟨new, ⟨spec.documentId, spec.snapshots, spec.operations, spec.place, spec.fresh, spec.ascending,
    spec.stamps, spec.durable⟩, by rw [← sameSeq]⟩

namespace Appended

variable {seq : Nat} {ops : List Operation} {new : List OperationRow}

theorem durable_mono (spec : Appended s s' seq ops new) (stamp : Identifier)
    (durable : s.Durable stamp) : s'.Durable stamp := by
  obtain ⟨row, member, same⟩ := durable
  exact ⟨row, by rw [spec.operations]; exact List.mem_append_left _ member, same⟩

/-- A transaction keeps the tables in order. -/
theorem wf (spec : Appended s s' seq ops new) (wf : s.WF)
    (below : ∀ row ∈ s.operations, row.seq < seq) (positive : 0 < seq)
    (current : s'.currentSeq = max s.currentSeq (seq + ops.length - 1)) : s'.WF where
  ascending := by
    rw [spec.operations, List.pairwise_append]
    refine ⟨wf.ascending, spec.ascending, fun a old b added => ?_⟩
    obtain ⟨k, -, place⟩ := spec.place b added
    have less := below a old
    omega
  stamps := by
    rw [spec.operations, List.map_append, List.nodup_append]
    refine ⟨wf.stamps, spec.stamps, ?_⟩
    rintro stamp old stamp' added rfl
    obtain ⟨row, member, rfl⟩ := List.mem_map.mp added
    exact spec.fresh row member (durable_iff.mpr old)
  numbered row member := by
    rw [spec.operations] at member
    rw [current]
    rcases List.mem_append.mp member with old | added
    · exact ⟨(wf.numbered row old).1, le_trans (wf.numbered row old).2 (le_max_left ..)⟩
    · obtain ⟨k, named, place⟩ := spec.place row added
      have inside := (List.getElem?_eq_some_iff.mp named).1
      exact ⟨by omega, le_trans (by omega) (le_max_right ..)⟩
  descending := spec.snapshots ▸ wf.descending

end Appended

/-! ### Snapshots -/

theorem mem_writeSnapshot {row : SnapshotRow} (written : s.writeSnapshot row = some s')
    (r : SnapshotRow) : r ∈ s'.snapshots ↔ r = row ∨ r ∈ s.snapshots := by
  unfold writeSnapshot at written
  split_ifs at written
  obtain rfl := Option.some.inj written
  exact List.mem_orderedInsert ..

/-- A snapshot that was written took a free number; nothing else changed. -/
theorem writeSnapshot_spec {row : SnapshotRow} (written : s.writeSnapshot row = some s') :
    (∀ r ∈ s.snapshots, r.seq ≠ row.seq) ∧ s'.operations = s.operations ∧
      s'.currentSeq = s.currentSeq ∧ (s.WF → s'.WF) := by
  have members := mem_writeSnapshot written
  unfold writeSnapshot at written
  split_ifs at written with taken
  obtain rfl := Option.some.inj written
  have free : ∀ r ∈ s.snapshots, r.seq ≠ row.seq := fun r member same =>
    taken (List.any_eq_true.mpr ⟨r, member, by simp [same]⟩)
  refine ⟨free, rfl, rfl, fun wf => ⟨wf.ascending, wf.stamps, wf.numbered, ?_⟩⟩
  have descending := wf.descending
  simp only
  generalize s.snapshots = rows at free descending
  induction rows with
  | nil => exact List.pairwise_singleton ..
  | cons first rows ih =>
      obtain ⟨above, rest⟩ := List.pairwise_cons.mp descending
      have apart := free first List.mem_cons_self
      rw [List.orderedInsert_cons]
      split_ifs with order
      · refine List.pairwise_cons.mpr ⟨fun r member => ?_, descending⟩
        rcases List.mem_cons.mp member with rfl | later
        · omega
        · have := above r later
          omega
      · refine List.pairwise_cons.mpr ⟨fun r member => ?_,
          ih (fun r member => free r (List.mem_cons_of_mem _ member)) rest⟩
        rcases (List.mem_orderedInsert ..).mp member with rfl | later
        · omega
        · exact above r later

/-- No snapshot is newer than the latest one. -/
theorem WF.le_snapshotSeq (wf : s.WF) {row : SnapshotRow} (member : row ∈ s.snapshots) :
    ∃ latest, s.latestSnapshot = some latest ∧ (row = latest ∨ row.seq < latest.seq) := by
  have descending := wf.descending
  rw [latestSnapshot]
  cases rows : s.snapshots with
  | nil =>
      rw [rows] at member
      cases member
  | cons first later =>
      rw [rows] at member descending
      refine ⟨first, rfl, ?_⟩
      rcases List.mem_cons.mp member with same | inside
      · exact Or.inl same
      · exact Or.inr ((List.pairwise_cons.mp descending).1 row inside)

/-! ### The suffix of the log -/

/-- In an ascending table the rows above a number come last. -/
theorem exists_prefix {rows : List OperationRow} (ascending : rows.Pairwise fun a b => a.seq < b.seq)
    (k : Nat) : ∃ covered, rows = covered ++ rows.filter (fun row => k < row.seq) ∧
      ∀ row ∈ covered, row.seq ≤ k := by
  induction rows with
  | nil => exact ⟨[], rfl, nofun⟩
  | cons row rows ih =>
      obtain ⟨above, rest⟩ := List.pairwise_cons.mp ascending
      by_cases suffix : k < row.seq
      · have all : ∀ r ∈ row :: rows, decide (k < r.seq) = true := fun r member => by
          rcases List.mem_cons.mp member with rfl | later
          · exact decide_eq_true suffix
          · exact decide_eq_true (suffix.trans (above r later))
        exact ⟨[], (List.filter_eq_self.mpr all).symm, nofun⟩
      · obtain ⟨covered, split, low⟩ := ih rest
        refine ⟨row :: covered, ?_, fun r member => ?_⟩
        · rw [List.filter_cons_of_neg (by simpa using suffix), List.cons_append, ← split]
        · rcases List.mem_cons.mp member with rfl | inside
          · exact Nat.le_of_not_lt suffix
          · exact low r inside

end Store

end ConfluenceEditor
