/-
Inserting right behind the node that the engine minted last.

Such a node has no children yet, so that an insertion at the visible index behind it makes the new node
its right child, with the next counter: the chain that a run of typed text is. Any other insertion is
placed elsewhere (`follows_iff`). Typing from a visible index on inserts each character behind the one
before it (`visible_localInsert`), except that the first one goes behind the left row of the root, if
that shows anything.
-/

import ConfluenceEditor.Engine.Sound
import ConfluenceEditor.Replication.Provenance
import ConfluenceEditor.Replication.VisibleEdits

namespace ConfluenceEditor

open SidedForest SidedForest.Forest

namespace FugueTree

variable {t : FugueTree}

/-- Behind a visible node: its right child if it has none, else to the left of what follows. -/
theorem WF.decidePlacement_behind (wf : t.WF) {k : Nat} {n : Node} (at? : t.visible[k]? = some n) :
    ∃ right : Forest TreeNode, t.decidePlacement ((k + 1 : Nat) : Int) =
        .ok (placeAfter (some n.id) right) ∧
      (right = .nil ↔ ∀ m ∈ t.nodes, ¬ (m.parent = some n.id ∧ m.side = .R)) := by
  have visible := (List.mem_filter.mp (List.mem_of_getElem? at?)).1
  obtain ⟨⟨a, left, right⟩, lookup, same⟩ := Option.map_eq_some_iff.mp
    (wf.nodeByIdentifier_eq_some_iff.mpr ⟨visible, rfl⟩)
  obtain ⟨id, sub⟩ := get?_sub lookup
  refine ⟨right, ?_, ?_⟩
  · have step : ((k + 1 : Nat) : Int) - 1 = (k : Nat) := by omega
    have notFirst : ¬ ((k + 1 : Nat) : Int) = 0 := by omega
    have found : t.nodeAtVisible (k : Nat) = .ok (some n) := by
      rw [wf.nodeAtVisible_eq, if_neg (by omega), Int.toNat_natCast, at?]
    rw [decidePlacement, if_neg notFirst, step, nodeAtVisibleRequired, found]
    simp only [byIdOrThrow, lookup, bind, Except.bind, id]
  · have children := wf.public_children sub .R
    rw [id] at children
    constructor
    · intro empty m member child
      have root := (children m).mp ⟨member, child⟩
      rw [empty] at root
      cases root
    · intro none
      cases row : right with
      | nil => rfl
      | cons c cl cr ct =>
          have root : c.toPublicNode ∈
              (Side.R.pick (left.map TreeNode.toPublicNode) (right.map TreeNode.toPublicNode)).roots := by
            rw [row]
            exact List.mem_cons_self
          obtain ⟨member, child⟩ := (children c.toPublicNode).mpr root
          exact absurd child (none _ member)

end FugueTree

namespace Engine

variable {e e' : Engine} {op prev : InsertOperation}

/-- What a local insertion mints. -/
structure Inserts (e e' : Engine) (visibleIndex : Int) (value : Nat) (bind : Bool)
    (op : InsertOperation) : Prop where
  placed : e.tree.decidePlacement visibleIndex = .ok (op.parent, op.side)
  id : op.id = ⟨e.clock + 1, e.replicaId⟩
  value : op.value = value
  bind : op.bind = bind
  clock : e'.clock = e.clock + 1
  replicaId : e'.replicaId = e.replicaId

theorem inserts_of_localInsert {visibleIndex : Int} {value : Nat} {bind : Bool}
    (inserted : e.localInsert visibleIndex value bind = .ok (op, e')) :
    Inserts e e' visibleIndex value bind op := by
  have ⟨⟨parent, side⟩, placed, rest⟩ := Throwing.ok_of_bind inserted
  have ⟨e₁, applied, done⟩ := Throwing.ok_of_bind rest
  have ⟨tree, attached, same⟩ := Throwing.ok_of_bind applied
  cases same
  cases done
  exact ⟨placed, rfl, rfl, rfl, rfl, rfl⟩

/-- The engine minted `prev` last, and nothing hangs below it. -/
structure LastMinted (e : Engine) (prev : InsertOperation) : Prop where
  id : prev.id = ⟨e.clock, e.replicaId⟩
  member : prev.toNode ∈ e.tree.nodes
  leaf : ∀ m ∈ e.tree.nodes, m.parent ≠ some prev.id

/-- A local insertion that succeeds is within the document. -/
theorem Sound.inside_of_localInsert (sound : e.Sound) {k value : Nat} {bind : Bool}
    (inserted : e.localInsert k value bind = .ok (op, e')) : k ≤ e.tree.visible.length := by
  by_contra outside
  have ⟨message, threw⟩ := sound.localInsert_error k (Or.inr (by omega)) value bind
  rw [inserted] at threw
  cases threw

theorem Sound.inserted_at (sound : e.Sound) {k value : Nat} {bind : Bool}
    (inserted : e.localInsert k value bind = .ok (op, e')) :
    ∃ before after, e'.Sound ∧ e.tree.Position op.parent op.side before after ∧
      e'.tree.nodes = before ++ op.toNode :: after ∧ e.tree.EndsAtOrigin before k := by
  have ⟨op', e₁, before, after, ran, minted, _, position, nodes, origin⟩ :=
    sound.localInsert_at k (sound.inside_of_localInsert inserted) value bind
  rw [inserted] at ran
  cases ran
  exact ⟨before, after, minted.sound, position, nodes, origin⟩

/-- The new identifier is above everything that the engine knows. -/
theorem Sound.id_of_localInsert (sound : e.Sound) {visibleIndex : Int} {value : Nat} {bind : Bool}
    (inserted : e.localInsert visibleIndex value bind = .ok (op, e')) :
    ∀ m ∈ e.tree.nodes, m.id ≠ op.id := by
  intro m member same
  have known := sound.clock m.id (sound.known m member)
  rw [same, (inserts_of_localInsert inserted).id] at known
  exact Nat.not_succ_le_self _ known

theorem Sound.lastMinted (sound : e.Sound) {k value : Nat} {bind : Bool}
    (inserted : e.localInsert k value bind = .ok (op, e')) : LastMinted e' op := by
  have fields := inserts_of_localInsert inserted
  have ⟨before, after, _, position, nodes, _⟩ := sound.inserted_at inserted
  have fresh := sound.id_of_localInsert inserted
  refine ⟨?_, ?_, ?_⟩
  · rw [fields.id, fields.clock, fields.replicaId]
  · rw [nodes]
    exact List.mem_append_right _ List.mem_cons_self
  · intro m member under
    rw [nodes] at member
    have old : m = op.toNode ∨ m ∈ e.tree.nodes := by
      rw [position.split]
      simp only [List.mem_append, List.mem_cons] at member ⊢
      tauto
    have above : ∃ x ∈ e.tree.nodes, x.id = op.id := by
      rcases old with same | inside
      · rw [same] at under
        exact sound.wf.hasIdentifier_iff.mp (position.ready _ under)
      · exact sound.wf.exists_parent inside under
    have ⟨x, inside, same⟩ := above
    exact fresh x inside same

/-- **The next character of a run.** An insertion continues the one before it exactly when it is made
right behind the node that the engine minted last. -/
theorem Sound.follows_iff (sound : e.Sound) (last : LastMinted e prev) {k value : Nat} {bind : Bool}
    (inserted : e.localInsert k value bind = .ok (op, e')) :
    (op.parent = some prev.id ∧ op.side = .R) ↔
      ∃ i, k = i + 1 ∧ e.tree.visible[i]? = some prev.toNode := by
  have fields := inserts_of_localInsert inserted
  have placed := fields.placed
  have inside := sound.inside_of_localInsert inserted
  cases k with
  | zero =>
      have first : e.tree.decidePlacement ((0 : Nat) : Int) =
          .ok (FugueTree.placeAfter none e.tree.rightChildren) := rfl
      rw [first] at placed
      refine iff_of_false ?_ ?_
      · rintro ⟨parent, side⟩
        rw [parent, side] at placed
        cases row : e.tree.rightChildren with
        | nil =>
            rw [row] at placed
            cases placed
        | cons c cl cr ct =>
            rw [row] at placed
            cases (Prod.mk.inj (Except.ok.inj placed)).2
      · rintro ⟨i, impossible, _⟩
        cases impossible
  | succ i =>
      have bound : i < e.tree.visible.length := inside
      have at? := List.getElem?_eq_getElem bound
      have ⟨right, decided, leaf⟩ := sound.wf.decidePlacement_behind at?
      rw [decided] at placed
      constructor
      · rintro ⟨parent, side⟩
        rw [parent, side] at placed
        refine ⟨i, rfl, ?_⟩
        rw [at?]
        cases row : right with
        | nil =>
            rw [row] at placed
            have same : e.tree.visible[i].id = prev.id :=
              Option.some.inj (Prod.mk.inj (Except.ok.inj placed)).1
            have there := (List.mem_filter.mp (List.getElem_mem bound)).1
            exact congrArg some (List.inj_on_of_nodup_map sound.wf.nodup there last.member same)
        | cons c cl cr ct =>
            rw [row] at placed
            cases (Prod.mk.inj (Except.ok.inj placed)).2
      · rintro ⟨i', same, here⟩
        cases same
        have minted : e.tree.visible[i] = prev.toNode := Option.some.inj (at?.symm.trans here)
        have empty : right = .nil := by
          apply leaf.mpr
          rw [minted]
          intro m member child
          exact last.leaf m member child.1
        rw [empty, minted] at placed
        have ⟨parent, side⟩ := Prod.mk.inj (Except.ok.inj placed)
        exact ⟨parent.symm, side.symm⟩

/-! ### Where the new node is seen -/

/-- The node that is inserted at a visible index has that index; at the start, the nodes of the root's
left row come before it. -/
theorem Sound.visible_localInsert (sound : e.Sound) {k value : Nat} {bind : Bool}
    (inserted : e.localInsert k value bind = .ok (op, e')) :
    e'.tree.visible[k]? = some op.toNode ↔
      k ≠ 0 ∨ FugueTree.visibleRow e.tree.leftChildren = [] := by
  have ⟨before, after, sound', position, nodes, origin⟩ := sound.inserted_at inserted
  have list : e'.tree.visible = (before.filter fun n => !n.deleted) ++ op.toNode ::
      after.filter fun n => !n.deleted := by
    rw [FugueTree.visible, nodes, List.filter_append, List.filter_cons_of_pos rfl]
  cases k with
  | zero =>
      have row : before.filter (fun n => !n.deleted) =
          (FugueTree.visibleRow e.tree.leftChildren).map TreeNode.toPublicNode := by
        rw [show before = _ from origin, FugueTree.visibleRow, List.filter_map]
        rfl
      rw [list, row]
      cases left : FugueTree.visibleRow e.tree.leftChildren with
      | nil => exact iff_of_true rfl (Or.inr rfl)
      | cons a rest =>
          refine iff_of_false (fun same => ?_) (by simp)
          have first : a.toPublicNode = op.toNode := Option.some.inj same
          have inside : a.toPublicNode ∈ before := by
            have shown : a.toPublicNode ∈ before.filter fun n => !n.deleted := by
              rw [row, left]
              exact List.mem_cons_self
            exact (List.mem_filter.mp shown).1
          have there : a.toPublicNode ∈ e.tree.nodes := by
            rw [position.split]
            exact List.mem_append_left _ inside
          exact sound.id_of_localInsert inserted _ there (congrArg Node.id first)
  | succ i =>
      have shows := length_before_origin sound.wf position.split origin
      refine iff_of_true ?_ (Or.inl (Nat.succ_ne_zero i))
      rw [list, List.getElem?_append_right (Nat.le_of_eq shows), shows, Nat.sub_self]
      rfl

end Engine

end ConfluenceEditor
