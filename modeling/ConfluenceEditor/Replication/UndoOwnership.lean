/-
Undo and redo against the deletions of other users.

In a reachable network an insert on a stack always had its effect (`Network.sound_of_reachable`), so
undo and redo never throw. Whether they can bring back a node that another replica deleted is read
off the stacks (`Network.undo_respects_iff`): they can exactly when some entry would delete the node
and some entry would undelete it.
-/

import ConfluenceEditor.Engine.UndoWalk
import ConfluenceEditor.Replication.Network

namespace ConfluenceEditor

open Engine

namespace Network

/-- The stacks of every replica are sound. -/
def StacksSound (n : Network) : Prop :=
  ∀ i, SoundEntries ((n.replicas i).undoStack ++ (n.replicas i).redoStack)

theorem StacksSound.update {n : Network} (sound : n.StacksSound) {i : Nat} {e : Engine}
    (new : SoundEntries (e.undoStack ++ e.redoStack)) (issued : List Operation)
    (received : Nat → List Operation) :
    StacksSound ⟨Function.update n.replicas i e, issued, received⟩ := by
  intro j
  by_cases same : j = i
  · subst same
    simpa using new
  · simpa [same] using sound j

theorem StacksSound.step {n n' : Network} (invariant : n.Invariant) (sound : n.StacksSound)
    {command : Command} (moved : n.step command = .ok n') : n'.StacksSound := by
  cases command with
  | localInsert i visibleIndex value binds =>
      obtain ⟨history, replica⟩ := invariant.replica i
      obtain ⟨⟨op, e⟩, inserted, done⟩ := Throwing.ok_of_bind moved
      obtain rfl := Except.ok.inj done
      obtain ⟨k, rfl, inside⟩ := Built.localInsert_inside replica.built.wf inserted
      obtain ⟨op', e', -, -, edited, -, -, -, -, -, -, undoStack, redoStack⟩ :=
        replica.built.localInsert_spec k inside value binds
      obtain ⟨rfl, rfl⟩ := Prod.mk.inj (Except.ok.inj (edited.symm.trans inserted))
      refine sound.update (fun entry member ins same => ?_) _ _
      rw [undoStack, redoStack, List.append_nil] at member
      rcases List.mem_cons.mp member with rfl | old
      · rfl
      · exact sound i entry (List.mem_append_left _ old) ins same
  | localDelete i visibleIndex count =>
      obtain ⟨history, replica⟩ := invariant.replica i
      obtain ⟨ops, e, edited, -, redoStack, entries⟩ :=
        replica.built.localDelete_spec visibleIndex count
      simp only [Network.step, edited, bind, Except.bind] at moved
      obtain rfl := Except.ok.inj moved
      refine sound.update (fun entry member ins same => ?_) _ _
      rw [redoStack, List.append_nil] at member
      rcases entries entry member with old | ⟨op, rfl⟩
      · exact sound i entry (List.mem_append_left _ old) ins same
      · rfl
  | undo i =>
      obtain ⟨history, replica⟩ := invariant.replica i
      obtain ⟨e, later, walked, spec⟩ := replica.built.walk_spec (sound i) .undo
      obtain ⟨⟨outcome, e'⟩, undone, done⟩ := Throwing.ok_of_bind moved
      obtain rfl := Except.ok.inj done
      rw [walk, undone] at walked
      obtain rfl := Except.ok.inj walked
      exact sound.update spec.sound _ _
  | redo i =>
      obtain ⟨history, replica⟩ := invariant.replica i
      obtain ⟨e, later, walked, spec⟩ := replica.built.walk_spec (sound i) .redo
      obtain ⟨⟨outcome, e'⟩, redone, done⟩ := Throwing.ok_of_bind moved
      obtain rfl := Except.ok.inj done
      rw [walk, redone] at walked
      obtain rfl := Except.ok.inj walked
      exact sound.update spec.sound _ _
  | deliver i op =>
      simp only [Network.step] at moved
      split_ifs at moved with issued
      obtain ⟨history, replica⟩ := invariant.replica i
      obtain ⟨buffered, e, applied, delivered, absorbed, -⟩ :=
        replica.built.applyRemote_spec op none
      simp only [delivered, bind, Except.bind] at moved
      obtain rfl := Except.ok.inj moved
      refine sound.update ?_ _ _
      rw [absorbed.undoStack, absorbed.redoStack]
      exact sound i

theorem sound_of_reachable {n : Network} (reachable : n.Reachable) : n.StacksSound := by
  have both : n.Invariant ∧ n.StacksSound := by
    refine reachable.invariant (P := fun n => n.Invariant ∧ n.StacksSound)
      ⟨invariant_init, fun i entry member => (nomatch member)⟩ ?_
    rintro s command s' ⟨invariant, sound⟩ moved
    exact ⟨invariant.step moved, sound.step invariant moved⟩
  exact both.2

/-- Undo and redo leave another replica's deletion alone exactly when the stacks do not hold both a
reversal that deletes the node and one that undeletes it. -/
theorem undo_respects_iff {n : Network} (reachable : n.Reachable) {i : Nat} {x : Node}
    (member : x ∈ (n.replicas i).nodes) {d : Identifier} (deletedBy : x.deletedBy = some d)
    (foreign : d.r ≠ i) :
    (∀ moves e, Run.run walk (n.replicas i) moves = .ok e →
      ∀ y ∈ e.nodes, y.id = x.id → y.deleted = true) ↔ ¬ (n.replicas i).Mixed x.id := by
  obtain ⟨history, replica⟩ := (invariant_of_reachable reachable).replica i
  have dot : dotOf history x.id = some d := by
    rw [replica.built.nodes_eq] at member
    rw [← replica.built.deletedBy x member, deletedBy]
  rw [← replica.built.resurrects_iff (sound_of_reachable reachable i) dot
    (by rwa [replica.replicaId])]
  constructor
  · rintro respected ⟨moves, e, ran, y, inside, same, visible⟩
    have deleted := respected moves e ran y inside same
    rw [visible] at deleted
    cases deleted
  · intro never moves e ran y inside same
    by_contra visible
    exact never ⟨moves, e, ran, y, inside, same, by simpa using visible⟩

/-! ### Two networks in which replica 2 deletes the node of replica 1 -/

/-- Replica 1 typed the node, replica 2 deletes it, and replica 1 receives the delete. -/
def deletedByPeer : List Command :=
  [.localInsert 1 0 97 false, .deliver 2 (.insert ⟨⟨1, 1⟩, 97, none, .R, false⟩),
    .localDelete 2 0 1, .deliver 1 (.delete ⟨⟨2, 2⟩, ⟨1, 1⟩⟩)]

/-- The same, while replica 1 deletes the node itself. -/
def deletedTwice : List Command :=
  [.localInsert 1 0 97 false, .deliver 2 (.insert ⟨⟨1, 1⟩, 97, none, .R, false⟩),
    .localDelete 1 0 1, .localDelete 2 0 1, .deliver 1 (.delete ⟨⟨2, 2⟩, ⟨1, 1⟩⟩)]

/-- The node as replica 1 sees it afterwards. -/
def lostNode : Node := ⟨⟨1, 1⟩, 97, none, .R, false, true, some ⟨2, 2⟩⟩

theorem undo_respects_peer : ∃ n : Network, Run.run Network.step Network.init deletedByPeer = .ok n ∧
    lostNode ∈ (n.replicas 1).nodes ∧ ∀ moves e, Run.run walk (n.replicas 1) moves = .ok e →
      ∀ y ∈ e.nodes, y.id = lostNode.id → y.deleted = true := by
  obtain ⟨n, ran, checked⟩ := Run.exists_of_ends (Run.run Network.step Network.init deletedByPeer)
    (fun n => decide (lostNode ∈ (n.replicas 1).nodes) &&
      decide (¬ (n.replicas 1).Mixed lostNode.id)) (by decide)
  rw [Bool.and_eq_true, decide_eq_true_iff, decide_eq_true_iff] at checked
  exact ⟨n, ran, checked.1,
    (undo_respects_iff ⟨_, ran⟩ checked.1 rfl (by decide)).mpr checked.2⟩

/-- Undo, undo, redo and redo bring the node back that replica 2 deleted. -/
theorem undo_resurrects : ¬ ∀ (n : Network) (i : Nat) (x : Node) (d : Identifier), n.Reachable →
    x ∈ (n.replicas i).nodes → x.deletedBy = some d → d.r ≠ i →
      ∀ moves e, Run.run walk (n.replicas i) moves = .ok e →
        ∀ y ∈ e.nodes, y.id = x.id → y.deleted = true := by
  intro respected
  obtain ⟨n, ran, checked⟩ := Run.exists_of_ends (Run.run Network.step Network.init deletedTwice)
    (fun n => decide (lostNode ∈ (n.replicas 1).nodes) &&
      Run.ends (Run.run walk (n.replicas 1) [UndoMove.undo, .undo, .redo, .redo]) fun e =>
        decide (∃ y ∈ e.nodes, y.id = lostNode.id ∧ y.deleted = false)) (by decide)
  rw [Bool.and_eq_true, decide_eq_true_iff] at checked
  obtain ⟨e, walked, shown⟩ := Run.exists_of_ends _ _ checked.2
  obtain ⟨y, inside, same, visible⟩ := of_decide_eq_true shown
  have deleted := respected n 1 lostNode ⟨2, 2⟩ ⟨_, ran⟩ checked.1 rfl (by decide) _ e walked y
    inside same
  rw [visible] at deleted
  cases deleted

end Network

end ConfluenceEditor
