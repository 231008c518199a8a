/-
Local edits on what the user sees.

An insertion at a visible index is an insertion into the list of visible nodes, and the new node
stands immediately after its left origin, be there tombstones between the visible nodes or not. A
deletion takes the visible nodes from an index on out of the list. An insertion outside the document
throws before it has changed anything: `localInsertObject` follows the method statement by statement
and keeps the object that a throw leaves behind.

At index 0 the left origin is the root, and the new node stands before every other one as long as no
node is a left child of the root. No engine mints such a node (`RootRight`).
-/

import ConfluenceEditor.Replication.Provenance

namespace ConfluenceEditor

namespace Engine

/-! ### What engines mint -/

/-- An insertion under the root goes to its right row. -/
def RootRight : Operation → Prop
  | .insert op => op.parent = none → op.side = .R
  | _ => True

/-- The call delivers an operation such as an engine mints. -/
def Call.Issued : Call → Prop
  | .applyRemote op _ => RootRight op
  | _ => True

/-- Calls lead from a new engine to this one, and what they deliver was minted by engines. -/
def Issued (e : Engine) : Prop :=
  ∃ replicaId, Run.Reaches (fun e (c : {c : Call // c.Issued}) => e.call c.1) (new replicaId) e

variable {e e' : Engine}

/-- An undo or redo step adds no node. -/
theorem stepUndoRedo_nodes (sound : e.Sound) {popFrom pushTo popFrom' pushTo' :
    List UndoStackEntry} {outcome : UndoOutcome}
    (stepped : e.stepUndoRedo popFrom pushTo = .ok (outcome, e', popFrom', pushTo')) :
    ∀ n ∈ e'.tree.nodes, ∃ m ∈ e.tree.nodes, m.toInsert = n.toInsert := by
  cases Built.reversed_of_step stepped with
  | idle quiet => exact fun n member => ⟨n, member, rfl⟩
  | applied effect stack present chosen applied =>
      rename_i entry kind e₁
      have sound₀ : e.mint.2.Sound := sound.congr rfl rfl (Nat.le_succ _)
      have fresh : (inverseOperation e.mint.1 entry.op.target kind).id ∉ e.mint.2.applied := by
        rw [Built.inverseOperation_id]
        exact sound.mint_fresh
      intro n member
      rcases applyKind_nodes sound₀ fresh applied member with old | new
      · exact old
      · exact absurd new (Built.inverseOperation_ne_insert _ _ kind _)

/-- An edit adds the node that it inserts, and no node to the left of the root. -/
theorem edit_rootRight (sound : e.Sound) {edit : LocalEdit} {ops : List Operation}
    (edited : e.edit edit = .ok (ops, e')) (n : Node) (member : n ∈ e'.tree.nodes) :
    (∃ m ∈ e.tree.nodes, m.toInsert = n.toInsert) ∨ RootRight (.insert n.toInsert) := by
  cases edit with
  | insert visibleIndex value bind =>
      obtain ⟨⟨op, e₁⟩, inserted, done⟩ := Throwing.ok_of_bind edited
      obtain ⟨-, rfl⟩ := Prod.mk.inj (Except.ok.inj done)
      obtain ⟨k, rfl, inside⟩ := Built.localInsert_inside sound.wf inserted
      obtain ⟨op', e', before, after, inserted', -, -, position, list, -⟩ :=
        sound.localInsert_at k inside value bind
      obtain ⟨rfl, rfl⟩ := Prod.mk.inj (Except.ok.inj (inserted'.symm.trans inserted))
      rw [list] at member
      rw [position.split]
      rcases List.mem_append.mp member with first | rest
      · exact Or.inl ⟨n, List.mem_append_left _ first, rfl⟩
      · rcases List.mem_cons.mp rest with rfl | last
        · exact Or.inr position.rootRight
        · exact Or.inl ⟨n, List.mem_append_right _ last, rfl⟩
  | delete visibleIndex count =>
      obtain ⟨⟨ops, e₁⟩, deleted, done⟩ := Throwing.ok_of_bind edited
      obtain ⟨-, rfl⟩ := Prod.mk.inj (Except.ok.inj done)
      have sound' : Sound { e with redoStack := [] } := sound.congr rfl rfl (le_refl _)
      exact Or.inl ((deleting_of_loop count deleted).nodes sound' n member)
  | undo =>
      obtain ⟨⟨outcome, e₁⟩, undone, done⟩ := Throwing.ok_of_bind edited
      obtain ⟨-, rfl⟩ := Prod.mk.inj (Except.ok.inj done)
      obtain ⟨⟨outcome₁, e₂, popped, pushed⟩, stepped, same⟩ := Throwing.ok_of_bind undone
      obtain ⟨-, rfl⟩ := Prod.mk.inj (Except.ok.inj same)
      exact Or.inl (stepUndoRedo_nodes sound stepped n member)
  | redo =>
      obtain ⟨⟨outcome, e₁⟩, redone, done⟩ := Throwing.ok_of_bind edited
      obtain ⟨-, rfl⟩ := Prod.mk.inj (Except.ok.inj done)
      obtain ⟨⟨outcome₁, e₂, popped, pushed⟩, stepped, same⟩ := Throwing.ok_of_bind redone
      obtain ⟨-, rfl⟩ := Prod.mk.inj (Except.ok.inj same)
      exact Or.inl (stepUndoRedo_nodes sound stepped n member)

/-- A call keeps the root's left row empty, and what waits out of it. -/
theorem Consists.call (consists : Consists RootRight e) (sound : e.Sound) {c : Call}
    (issued : c.Issued) (called : e.call c = .ok e') : Consists RootRight e' := by
  cases c with
  | applyRemote op context =>
      obtain ⟨⟨buffered, e₁⟩, applied, done⟩ := Throwing.ok_of_bind called
      obtain rfl := Except.ok.inj done
      exact consists.applyRemote sound issued applied
  | edit edit =>
      obtain ⟨⟨ops, e₁⟩, edited, done⟩ := Throwing.ok_of_bind called
      obtain rfl := Except.ok.inj done
      refine ⟨fun n member => ?_, ?_⟩
      · rcases edit_rootRight sound edited n member with ⟨m, old, same⟩ | new
        · exact same ▸ consists.nodes m old
        · exact new
      · rw [(sound.edit_spec edited).pending]
        exact consists.pending
  | setDeleteContext id context =>
      obtain rfl := Except.ok.inj called
      exact ⟨consists.nodes, consists.pending⟩
  | rejectPending id =>
      obtain rfl := Except.ok.inj called
      obtain ⟨pending, rejected, sub⟩ := rejectPending_eq e id
      rw [rejected]
      exact ⟨consists.nodes, fun op member => consists.pending op (sub.subset member)⟩
  | tryRevertLocalInsert id =>
      obtain rfl := Except.ok.inj called
      exact consists.tryRevertLocalInsert sound id
  | collect frontier options =>
      obtain ⟨⟨result, e₁⟩, ran, done⟩ := Throwing.ok_of_bind called
      obtain rfl := Except.ok.inj done
      obtain ⟨result', e₂, gone, ran', collected, -⟩ := sound.collect_spec frontier options
      obtain ⟨-, rfl⟩ := Prod.mk.inj (Except.ok.inj (ran'.symm.trans ran))
      refine ⟨fun n member => consists.nodes n ?_, ?_⟩
      · rw [collected.nodes sound] at member
        exact (List.mem_filter.mp member).1
      · obtain ⟨tree, deleteContext, same⟩ := collected.frame
        rw [same]
        exact consists.pending

theorem Issued.spec (issued : e.Issued) : e.Sound ∧ Consists RootRight e := by
  obtain ⟨replicaId, reached⟩ := issued
  refine reached.invariant (P := fun e => e.Sound ∧ Consists RootRight e)
    ⟨sound_new replicaId, consists_new _ replicaId⟩ fun s c s' holds called => ?_
  exact ⟨holds.1.moves (call_moves holds.1 called), holds.2.call holds.1 c.2 called⟩

/-- The document starts in the root's right row. -/
theorem Issued.leftChildren_eq_nil (issued : e.Issued) : e.tree.leftChildren = .nil :=
  issued.spec.1.wf.leftChildren_eq_nil fun n member => issued.spec.2.nodes n member

/-! ### Insertions -/

/-- `localInsert` with the object that it leaves behind, whether it returns or throws. -/
def localInsertObject (e : Engine) (visibleIndex : Int) (value : Nat) (bind : Bool) :
    Except String InsertOperation × Engine :=
  match e.tree.decidePlacement visibleIndex with
  | .error message => (.error message, e)
  | .ok (parent, side) =>
      let (id, e) := e.mint
      let op : InsertOperation := { id, value, parent, side, bind }
      match e.applyInsert op with
      | .error message => (.error message, e)
      | .ok e =>
          let e := e.markApplied op.id
          (.ok op, { e with undoStack := ⟨.insert op, true⟩ :: e.undoStack, redoStack := [] })

/-- The object and the result are those of `localInsert`. -/
theorem localInsert_eq (e : Engine) (visibleIndex : Int) (value : Nat) (bind : Bool) :
    e.localInsert visibleIndex value bind =
      (e.localInsertObject visibleIndex value bind).1.map fun op =>
        (op, (e.localInsertObject visibleIndex value bind).2) := by
  unfold localInsert localInsertObject
  cases decided : e.tree.decidePlacement visibleIndex with
  | error message => rfl
  | ok placed =>
      obtain ⟨parent, side⟩ := placed
      simp only [Bind.bind, Except.bind]
      cases e.mint.2.applyInsert ⟨e.mint.1, value, parent, side, bind⟩ with
      | error message => rfl
      | ok e₁ => rfl

theorem localInsertObject_of_ok {visibleIndex : Int} {value : Nat} {bind : Bool}
    {op : InsertOperation} (inserted : e.localInsert visibleIndex value bind = .ok (op, e')) :
    e.localInsertObject visibleIndex value bind = (.ok op, e') := by
  rw [localInsert_eq] at inserted
  generalize e.localInsertObject visibleIndex value bind = outcome at inserted
  obtain ⟨result, object⟩ := outcome
  cases result with
  | error message => cases inserted
  | ok op' =>
      obtain ⟨rfl, rfl⟩ := Prod.mk.inj (Except.ok.inj inserted)
      rfl

/-- Outside the document the placement throws, and nothing has been changed yet. -/
theorem Sound.localInsertObject_outside (sound : e.Sound) {visibleIndex : Int}
    (outside : visibleIndex < 0 ∨ (e.tree.visible.length : Int) < visibleIndex) (value : Nat)
    (bind : Bool) :
    ∃ message, e.localInsertObject visibleIndex value bind = (.error message, e) := by
  obtain ⟨message, threw⟩ := sound.wf.decidePlacement_outside outside
  refine ⟨message, ?_⟩
  unfold localInsertObject
  rw [threw]

theorem insertIdx_append {α : Type} (first last : List α) (x : α) :
    (first ++ last).insertIdx first.length x = first ++ x :: last := by
  induction first with
  | nil => rfl
  | cons y first ih => rw [List.cons_append, List.length_cons, List.insertIdx_succ_cons, ih]; rfl

/-- What ends with the visible node before index `i + 1` shows `i + 1` nodes. -/
theorem length_before_origin {t : FugueTree} (wf : t.WF) {before after : List Node} {i : Nat}
    (split : t.nodes = before ++ after) (origin : t.EndsAtOrigin before (i + 1)) :
    (before.filter fun n => !n.deleted).length = i + 1 := by
  obtain ⟨first, n, rfl, here⟩ := origin
  have shown : n.deleted = false := by
    simpa using (List.mem_filter.mp (List.mem_of_getElem? here)).2
  have whole : t.nodes = first ++ n :: after := by
    rw [split, List.append_assoc, List.singleton_append]
  have distinct : (first ++ n :: after).Nodup := whole ▸ wf.nodup.of_map
  rw [FugueTree.visible, whole] at here
  have index := FugueTree.length_filter_before distinct here
  rw [List.filter_append, List.filter_cons_of_pos (by simp [shown]), List.filter_nil,
    List.length_append, index]
  rfl

/-- What comes before the position at visible index `k` shows `k` nodes, the last of which is the
left origin. -/
theorem origin_length {t : FugueTree} (wf : t.WF) (rootless : t.leftChildren = .nil)
    {before after : List Node} {k : Nat} (split : t.nodes = before ++ after)
    (origin : t.EndsAtOrigin before k) :
    (before.filter fun n => !n.deleted).length = k ∧
      before.getLast? = if k = 0 then none else t.visible[k - 1]? := by
  cases k with
  | zero =>
      obtain rfl : before = [] := by
        rw [show before = _ from origin, rootless]
        rfl
      exact ⟨rfl, rfl⟩
  | succ i =>
      refine ⟨length_before_origin wf split origin, ?_⟩
      obtain ⟨first, n, rfl, here⟩ := origin
      simp [here]

/-- What an insertion at index `k` does to what is seen and to the node order. -/
structure Inserted (e e' : Engine) (k value : Nat) (op : InsertOperation) : Prop where
  value : op.value = value
  visible : e'.visible = e.visible.insertIdx k op.toNode
  order : ∃ before after, e.nodes = before ++ after ∧ e'.nodes = before ++ op.toNode :: after ∧
    before.getLast? = if k = 0 then none else e.visible[k - 1]?

theorem Sound.visible_eq (sound : e.Sound) : e.visible = e.tree.visible := by
  rw [visible, nodes, sound.wf.toArray_eq]
  rfl

theorem Issued.localInsert (issued : e.Issued) (k : Nat) (inside : k ≤ e.visible.length)
    (value : Nat) (bind : Bool) :
    ∃ op e', e.localInsertObject k value bind = (.ok op, e') ∧ Inserted e e' k value op := by
  have sound := issued.spec.1
  rw [sound.visible_eq] at inside
  obtain ⟨op, e', before, after, inserted, minted, same, position, list, origin⟩ :=
    sound.localInsert_at k inside value bind
  obtain ⟨shown, last⟩ := origin_length sound.wf issued.leftChildren_eq_nil position.split origin
  refine ⟨op, e', localInsertObject_of_ok inserted, same, ?_, before, after, ?_, ?_, ?_⟩
  · rw [sound.visible_eq, minted.sound.visible_eq, FugueTree.visible, FugueTree.visible, list,
      position.split, List.filter_append, List.filter_append,
      List.filter_cons_of_pos (by simp [InsertOperation.toNode]), ← shown]
    exact (insertIdx_append _ _ _).symm
  · rw [nodes, sound.wf.toArray_eq]
    exact position.split
  · rw [nodes, minted.sound.wf.toArray_eq]
    exact list
  · rw [sound.visible_eq]
    exact last

/-! ### Local edits mean what the user sees -/

/-- What a deletion of `count` nodes from index `k` on does: those visible nodes go, in order, with
consecutive stamps, and nothing else that is seen changes. -/
structure Removed (e e' : Engine) (k count : Nat) (ops : List DeleteOperation) : Prop where
  length : ops.length = min count (e.visible.length - k)
  targets : ops.map DeleteOperation.target = ((e.visible.drop k).take count).map Node.id
  ids : ops.map DeleteOperation.id =
    (List.range ops.length).map fun j => ⟨e.clock + (j + 1), e.replicaId⟩
  clock : e'.clock = e.clock + ops.length
  visible : e'.visible = e.visible.take k ++ e.visible.drop (k + count)
  order : e'.nodes.map Node.id = e.nodes.map Node.id

theorem Sound.localDelete (sound : e.Sound) (k count : Nat) :
    ∃ ops e', e.localDelete k count = .ok (ops, e') ∧ Removed e e' k count ops := by
  obtain ⟨ops, e', removed, minted, deleted⟩ := sound.localDelete_at k count
  have same : e.visible = e.tree.visible := sound.visible_eq
  refine ⟨ops, e', removed, ?_, ?_, deleted.ids, deleted.clock, ?_, ?_⟩
  · rw [same]
    exact deleted.length
  · rw [same]
    exact deleted.targets
  · rw [same, minted.sound.visible_eq]
    exact deleted.visible
  · rw [nodes, nodes, sound.wf.toArray_eq, minted.sound.wf.toArray_eq]
    have ids := congrArg (List.map InsertOperation.id) deleted.nodes
    rwa [List.map_map, List.map_map] at ids

/-- Two characters typed, the first of them deleted again. -/
def typedOver : List {c : Call // c.Issued} :=
  [⟨.edit (.insert 0 97 false), trivial⟩, ⟨.edit (.insert 1 98 false), trivial⟩,
    ⟨.edit (.delete 0 1), trivial⟩]

end Engine

end ConfluenceEditor
