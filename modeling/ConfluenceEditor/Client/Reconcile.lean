/-
Rebuilding a client's engine on a reconnect and replaying its offline queue.

The definitions follow the source: `buildCleanCatchupBase` strips what the server has not
acknowledged from the client's own nodes, and `reconcileOfflineQueue` mints every queued insert and
delete again on the rebuilt engine, at a visible index computed from the operation's anchor, through
a map from old identifiers to new ones. An undelete is skipped. The lemmas say where the index
functions point: a visible node is inserted after, or deleted, exactly where it stands in the node
list (`localInsert_at`, `localDelete_at`).
-/

import ConfluenceEditor.Replication.Rebuild

namespace ConfluenceEditor

open Engine

/-- The nodes without the unacknowledged inserts and with the unacknowledged deletes reverted. -/
def buildCleanCatchupBase (nodes : List Node) (unackedIds : List Identifier) : List Node :=
  nodes.filterMap fun node =>
    if node.id ∈ unackedIds then none
    else if node.deleted && node.deletedBy.any fun d => decide (d ∈ unackedIds) then
      some { node with deleted := false, deletedBy := none }
    else some node

/-! ### Visible indices -/

def countVisible (nodes : List Node) : Nat := (nodes.filter fun n => !n.deleted).length

def structuralIndexOf (e : Engine) (id : Identifier) : Option Nat :=
  e.nodes.findIdx? fun node => decide (node.id.c = id.c) && decide (node.id.r = id.r)

/-- Where to insert so that the new node follows the anchor; the start without an anchor. -/
def visibleIndexAfter (e : Engine) : Option Identifier → Nat
  | none => 0
  | some anchor =>
      match structuralIndexOf e anchor with
      | none => 0
      | some idx => countVisible (e.nodes.take (idx + 1))

/-- Where to insert so that the new node precedes the anchor. -/
def visibleIndexBefore (e : Engine) (anchor : Identifier) : Nat :=
  match structuralIndexOf e anchor with
  | none => 0
  | some idx => countVisible (e.nodes.take idx)

/-- The visible index of a node, `none` when it is missing or deleted. -/
def visibleIndexOfTarget (e : Engine) (target : Identifier) : Option Nat := do
  let idx ← structuralIndexOf e target
  let node ← e.nodes[idx]?
  if node.deleted then none else some (countVisible (e.nodes.take idx))

/-! ### The replay -/

/-- The loop's variables: the engine, the map from old to new identifiers, and what was minted. -/
structure Reconciliation where
  engine : Engine
  remap : Identifier → Option Identifier
  resent : List Operation

namespace Reconciliation

def resolve (s : Reconciliation) (id : Identifier) : Identifier := (s.remap id).getD id

/-- The index for a queued insert: right after its parent, or right before it. -/
def insertIndex (s : Reconciliation) (op : InsertOperation) : Nat :=
  match op.parent with
  | none => 0
  | some parent =>
      match op.side with
      | .R => visibleIndexAfter s.engine (some (s.resolve parent))
      | .L => visibleIndexBefore s.engine (s.resolve parent)

/-- One queued operation. -/
def replay (s : Reconciliation) : Operation → Except String Reconciliation
  | .insert op => do
      let (newOp, engine) ← s.engine.localInsert (s.insertIndex op) op.value op.bind
      .ok ⟨engine, Function.update s.remap op.id (some newOp.id), s.resent ++ [.insert newOp]⟩
  | .delete op =>
      match visibleIndexOfTarget s.engine (s.resolve op.target) with
      | none => .ok s
      | some visibleIndex => do
          match ← s.engine.localDelete visibleIndex 1 with
          | (newOp :: _, engine) =>
              .ok ⟨engine, Function.update s.remap op.id (some newOp.id),
                s.resent ++ [.delete newOp]⟩
          | ([], engine) => .ok { s with engine }
  | .undelete _ => .ok s

end Reconciliation

/-- Mint the queued operations again, in their order. -/
def reconcileOfflineQueue (e : Engine) (queuedOps : List Operation) :
    Except String Reconciliation :=
  queuedOps.foldlM Reconciliation.replay ⟨e, fun _ => none, []⟩

/-- `rebuildEngineForReconnect` followed by the replay of the whole queue. -/
def reconnect (replicaId : Nat) (e : Engine) (unacked : List Operation) :
    Except String Reconciliation := do
  let fresh ← seedEngineFromSnapshot replicaId
    (buildCleanCatchupBase e.nodes (unacked.map Operation.id))
  reconcileOfflineQueue fresh unacked

/-! ### Where the indices point -/

section Index

variable {e : Engine} {before after : List Node} {n : Node}

theorem structuralIndexOf_eq (split : e.nodes = before ++ n :: after)
    (nodup : (e.nodes.map Node.id).Nodup) : structuralIndexOf e n.id = some before.length := by
  have here : ∀ m : Node, (decide (m.id.c = n.id.c) && decide (m.id.r = n.id.r)) = true ↔
      m.id = n.id := fun m => by
    rw [Identifier.ext_iff']
    simp
  rw [structuralIndexOf, split, List.findIdx?_append, List.findIdx?_eq_none_iff.mpr]
  · rw [List.findIdx?_cons, if_pos ((here n).mpr rfl)]
    simp
  · intro m member
    rw [Bool.eq_false_iff, ne_eq, here]
    rw [split, List.map_append, List.nodup_append] at nodup
    exact nodup.2.2 m.id (List.mem_map_of_mem member) n.id (by simp)

theorem visibleIndexAfter_eq (split : e.nodes = before ++ n :: after)
    (nodup : (e.nodes.map Node.id).Nodup) :
    visibleIndexAfter e (some n.id) = countVisible (before ++ [n]) := by
  simp only [visibleIndexAfter, structuralIndexOf_eq split nodup]
  rw [split, List.append_cons]
  exact congrArg countVisible (List.take_left' (by simp))

theorem visibleIndexBefore_eq (split : e.nodes = before ++ n :: after)
    (nodup : (e.nodes.map Node.id).Nodup) :
    visibleIndexBefore e n.id = countVisible before := by
  simp only [visibleIndexBefore, structuralIndexOf_eq split nodup]
  rw [split]
  exact congrArg countVisible (List.take_left' rfl)

theorem visibleIndexOfTarget_eq (split : e.nodes = before ++ n :: after)
    (nodup : (e.nodes.map Node.id).Nodup) :
    visibleIndexOfTarget e n.id = if n.deleted then none else some (countVisible before) := by
  have at? : e.nodes[before.length]? = some n := by simp [split]
  simp only [visibleIndexOfTarget, structuralIndexOf_eq split nodup, at?, Option.bind_eq_bind,
    Option.bind_some]
  rw [split, List.take_left' rfl]

/-- The number of visible nodes before a visible node is its visible index. -/
theorem visible_countVisible (split : e.tree.nodes = before ++ n :: after)
    (shown : n.deleted = false) : e.tree.visible[countVisible before]? = some n := by
  rw [FugueTree.visible, split, List.filter_append, List.filter_cons_of_pos (by simp [shown])]
  simp [countVisible]

end Index

namespace Built

variable {e : Engine} {history : List Operation} {before after : List Node}

theorem nodup_nodes (built : Built e history) : (e.nodes.map Node.id).Nodup := by
  rw [built.nodes_eq]
  exact built.wf.nodup

/-- Inserting after a visible node, or at the very start, puts the new node right there. -/
theorem localInsert_at (built : Built e history)
    (rootRight : ∀ m ∈ e.tree.nodes, m.parent = none → m.side = .R)
    (split : e.tree.nodes = before ++ after)
    (origin : before = [] ∨ ∃ first n, before = first ++ [n] ∧ n.deleted = false)
    (value : Nat) (bind : Bool) :
    ∃ op e', e.localInsert (countVisible before) value bind = .ok (op, e') ∧
      Minted e e' history [.insert op] ∧ op.value = value ∧
      e'.tree.nodes = before ++ op.toNode :: after ∧ (op.parent = none → op.side = .R) ∧
      ∀ m ∈ e.tree.nodes, ¬ (m.parent = op.parent ∧ m.side = op.side) := by
  have inside : countVisible before ≤ e.tree.visible.length := by
    rw [FugueTree.visible, split, List.filter_append, List.length_append]
    exact Nat.le_add_right ..
  obtain ⟨op, e', before', after', inserted, minted, sameValue, -, position, list, ends, -, -⟩ :=
    built.localInsert_spec (countVisible before) inside value bind
  -- both splits end with the same visible node
  have same : before' = before ∧ after' = after := by
    rcases origin with rfl | ⟨first, n, rfl, shown⟩
    · have start : before' = [] := by
        have ends : before' = e.tree.leftChildren.inorder.map TreeNode.toPublicNode := ends
        rw [ends, built.wf.leftChildren_eq_nil rootRight]
        rfl
      refine ⟨start, ?_⟩
      have whole := position.split.symm.trans split
      rwa [start] at whole
    · have counted : countVisible (first ++ [n]) = countVisible first + 1 := by
        simp [countVisible, shown]
      rw [counted] at ends
      obtain ⟨first', n', rfl, at?⟩ := ends
      rw [List.append_assoc] at split
      rw [visible_countVisible split shown] at at?
      obtain rfl := Option.some.inj at?
      have whole := position.split
      rw [List.append_assoc] at whole
      obtain ⟨rfl, rfl⟩ := FugueTree.eq_of_split (whole ▸ built.wf.nodup) (whole.symm.trans split)
      exact ⟨rfl, rfl⟩
  obtain ⟨rfl, rfl⟩ := same
  exact ⟨op, e', inserted, minted, sameValue, list, position.rootRight, position.free⟩

/-- Deleting a visible node by its index. -/
theorem localDelete_at (built : Built e history) {n : Node}
    (split : e.tree.nodes = before ++ n :: after) (shown : n.deleted = false) :
    ∃ op e', e.localDelete (countVisible before) 1 = .ok ([op], e') ∧ op.target = n.id ∧
      Minted e e' history [.delete op] :=
  built.localDelete_one (visible_countVisible split shown)

end Built

end ConfluenceEditor
