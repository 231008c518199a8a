/-
The engine's plain data: identifiers, nodes and operations.

`compareIds` is the source's comparison; `compareIds_pos_iff` reads it as the lexicographic order
`Identifier.lt`, which the tombstone rule compares by.
-/

import ConfluenceEditor.Library.Forest
import Mathlib.Order.Basic

namespace ConfluenceEditor

open SidedForest (Side)

/-- A Lamport counter and a replica id. -/
structure Identifier where
  c : Nat
  r : Nat
  deriving DecidableEq, Repr

/-- Negative, zero or positive: counters first, then replica ids. -/
def compareIds (a b : Identifier) : Int :=
  if a.c ≠ b.c then (a.c : Int) - b.c else (a.r : Int) - b.r

/-- The map key of an identifier, as it stands in error messages. -/
def serializeId (id : Identifier) : String := toString id.c ++ ":" ++ toString id.r

/-- One unit of document content. -/
structure Node where
  id : Identifier
  value : Nat
  parent : Option Identifier
  side : Side
  bind : Bool
  deleted : Bool
  deletedBy : Option Identifier
  deriving DecidableEq, Repr

structure InsertOperation where
  id : Identifier
  value : Nat
  parent : Option Identifier
  side : Side
  bind : Bool
  deriving DecidableEq, Repr

structure DeleteOperation where
  id : Identifier
  target : Identifier
  deriving DecidableEq, Repr

structure UndeleteOperation where
  id : Identifier
  target : Identifier
  deriving DecidableEq, Repr

inductive Operation where
  | insert (op : InsertOperation)
  | delete (op : DeleteOperation)
  | undelete (op : UndeleteOperation)
  deriving DecidableEq, Repr

namespace Operation

/-- The operation's own identifier. -/
def id : Operation → Identifier
  | insert op => op.id
  | delete op => op.id
  | undelete op => op.id

/-- The node an operation is about: the one it inserts, deletes or revives. -/
def target : Operation → Identifier
  | insert op => op.id
  | delete op => op.target
  | undelete op => op.target

/-- The node that must be present before the operation can be applied. -/
def dependency : Operation → Option Identifier
  | insert op => op.parent
  | delete op => some op.target
  | undelete op => some op.target

/-- The identifiers that an operation mentions: its own, and what it is applied to. -/
def names (op : Operation) : List Identifier := op.id :: op.dependency.toList

/-- The node an operation brings into being. -/
def insertedId : Operation → Option Identifier
  | insert op => some op.id
  | delete _ => none
  | undelete _ => none

@[simp] theorem id_insert (op : InsertOperation) : (insert op).id = op.id := rfl

@[simp] theorem id_delete (op : DeleteOperation) : (delete op).id = op.id := rfl

@[simp] theorem id_undelete (op : UndeleteOperation) : (undelete op).id = op.id := rfl

@[simp] theorem target_insert (op : InsertOperation) : (insert op).target = op.id := rfl

@[simp] theorem target_delete (op : DeleteOperation) : (delete op).target = op.target := rfl

@[simp] theorem target_undelete (op : UndeleteOperation) : (undelete op).target = op.target := rfl

end Operation

/-- The part of a node that its insert carries and that never changes. -/
def Node.toInsert (n : Node) : InsertOperation := ⟨n.id, n.value, n.parent, n.side, n.bind⟩

@[simp] theorem Node.toInsert_id (n : Node) : n.toInsert.id = n.id := rfl

@[simp] theorem Node.toInsert_parent (n : Node) : n.toInsert.parent = n.parent := rfl

@[simp] theorem Node.toInsert_side (n : Node) : n.toInsert.side = n.side := rfl

@[simp] theorem Node.toInsert_value (n : Node) : n.toInsert.value = n.value := rfl

@[simp] theorem Node.toInsert_bind (n : Node) : n.toInsert.bind = n.bind := rfl

/-- The fresh node that an insert attaches. -/
def InsertOperation.toNode (op : InsertOperation) : Node :=
  ⟨op.id, op.value, op.parent, op.side, op.bind, false, none⟩

@[simp] theorem InsertOperation.toNode_id (op : InsertOperation) : op.toNode.id = op.id := rfl

@[simp] theorem InsertOperation.toInsert_toNode (op : InsertOperation) :
    op.toNode.toInsert = op := rfl

/-! ### The order of identifiers -/

/-- Counters first, then replica ids. -/
def Identifier.lt (a b : Identifier) : Prop := a.c < b.c ∨ a.c = b.c ∧ a.r < b.r

instance : LT Identifier := ⟨Identifier.lt⟩

instance (a b : Identifier) : Decidable (a < b) :=
  inferInstanceAs (Decidable (a.c < b.c ∨ a.c = b.c ∧ a.r < b.r))

theorem Identifier.lt_iff {a b : Identifier} : a < b ↔ a.c < b.c ∨ a.c = b.c ∧ a.r < b.r := Iff.rfl

theorem compareIds_pos_iff {a b : Identifier} : compareIds a b > 0 ↔ b < a := by
  rw [Identifier.lt_iff, compareIds]
  split_ifs <;> omega

theorem Identifier.ext_iff' {a b : Identifier} : a = b ↔ a.c = b.c ∧ a.r = b.r := by
  cases a
  cases b
  simp

theorem Identifier.lt_irrefl (a : Identifier) : ¬ a < a := by
  rw [lt_iff]
  omega

theorem Identifier.lt_trans {a b c : Identifier} (first : a < b) (second : b < c) : a < c := by
  rw [lt_iff] at *
  omega

theorem Identifier.lt_of_not_lt {a b : Identifier} (other : ¬ a < b) (ne : a ≠ b) : b < a := by
  rw [ne_eq, ext_iff'] at ne
  rw [lt_iff] at *
  omega

end ConfluenceEditor
