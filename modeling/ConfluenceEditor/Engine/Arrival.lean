/-
Siblings of the same rank.

Two nodes of one replica may hang under the same parent, on the same side and with the same binding:
their replica inserts the second one after the first one was collected or reverted. Nothing but the
order of arrival tells them apart. In every reachable engine the one that was applied first stands
first (`Reachable.arrived`).
-/

import ConfluenceEditor.Engine.Calls
import ConfluenceEditor.Library.Before

namespace ConfluenceEditor

open SidedForest SidedForest.Forest

namespace Node

/-- The sibling order does not tell the nodes apart. -/
def Tied (a b : Node) : Prop :=
  a.parent = b.parent ∧ a.side = b.side ∧ siblingRank a.bind a.id = siblingRank b.bind b.id

instance (a b : Node) : Decidable (Tied a b) :=
  inferInstanceAs (Decidable (_ ∧ _ ∧ _))

theorem Tied.symm {a b : Node} (tied : Tied a b) : Tied b a :=
  ⟨tied.1.symm, tied.2.1.symm, tied.2.2.symm⟩

theorem siblingLE_iff {a b : Node} : a.siblingLE b ↔ Node.siblingLess b a = false := Iff.rfl

/-- Of two siblings one sorts before the other, unless they are tied. -/
theorem rank_eq_of_siblingLE {a b : Node} (first : a.siblingLE b) (second : b.siblingLE a) :
    siblingRank a.bind a.id = siblingRank b.bind b.id := by
  rw [siblingLE_iff, Node.siblingLess, rankLess_eq_false] at first second
  exact Prod.ext (by omega) (by omega)

theorem siblingLE_of_rank_eq {a b : Node}
    (same : siblingRank a.bind a.id = siblingRank b.bind b.id) : a.siblingLE b := by
  rw [siblingLE_iff, Node.siblingLess, rankLess_eq_false, same]
  exact Or.inr ⟨rfl, le_refl _⟩

end Node

/-! ### The newest sibling -/

/-- The sibling comparison, with the node `newest` after those of its rank. -/
def lastLess (newest : Identifier) (a b : Node) : Bool :=
  Node.siblingLess a b ||
    (!Node.siblingLess b a && decide (b.id = newest) && !decide (a.id = newest))

/-- The order of siblings in which `newest` comes last among those of its rank. -/
def LastLE (newest : Identifier) (a b : Node) : Prop :=
  a.siblingLE b ∧ (b.siblingLE a → a.id = newest → b.id = newest)

theorem sorts_lastLess (newest : Identifier) : Sorts (lastLess newest) (LastLE newest) where
  before a b less := by
    unfold lastLess at less
    rw [Bool.or_eq_true, Bool.and_eq_true, Bool.and_eq_true, decide_eq_true_iff] at less
    rcases less with strict | ⟨⟨tied, here⟩, -⟩
    · refine ⟨Node.sorts_siblingLess.before a b strict, fun reverse => ?_⟩
      rw [Node.siblingLE_iff, strict] at reverse
      cases reverse
    · rw [Bool.not_eq_true'] at tied
      exact ⟨tied, fun _ _ => here⟩
  after a b less := by
    unfold lastLess at less
    rw [Bool.or_eq_false_iff] at less
    refine ⟨less.1, fun reverse here => ?_⟩
    by_contra other
    rw [Node.siblingLE_iff] at reverse
    simp [reverse, here, other] at less
  trans a b c first second := by
    refine ⟨Node.sorts_siblingLess.trans a b c first.1 second.1, fun reverse here => ?_⟩
    have middle := first.2 (Node.sorts_siblingLess.trans b c a second.1 reverse) here
    exact second.2 (Node.sorts_siblingLess.trans c a b reverse first.1) middle

/-- For the newest node itself the comparison is the sibling comparison. -/
theorem lastLess_newest {n : Node} (b : Node) : lastLess n.id n b = Node.siblingLess n b := by
  simp [lastLess]

namespace FugueTree

variable {t t' : FugueTree} {op : InsertOperation}

/-- A new node comes after the siblings of its rank. -/
theorem WF.attach_last (wf : t.WF) (fresh : t.hasIdentifier op.id = false)
    (attached : t.attach op.id op.value op.bind op.parent op.side = .ok t') :
    Rows Node.id Node.parent Node.side (LastLE op.id)
      (t'.leftChildren.map TreeNode.toPublicNode) (t'.rightChildren.map TreeNode.toPublicNode) := by
  have absent := wf.fresh_of_not_has fresh
  have old : Rows Node.id Node.parent Node.side (LastLE op.id)
      (t.leftChildren.map TreeNode.toPublicNode) (t.rightChildren.map TreeNode.toPublicNode) := by
    refine wf.rows.reorder fun x y before same sameSide => ⟨wf.rows.before before same sameSide,
      fun _ here => absurd here (absent x ?_)⟩
    rw [← inorder_public]
    exact before.mem.1
  rw [← inorder_public] at absent
  have less : ∀ b, lastLess op.id op.toNode b = Node.siblingLess op.toNode b := lastLess_newest
  cases under : op.parent with
  | none =>
      have rows := old.insertIn (n := op.toNode) (sorts_lastLess op.id) under absent
      rw [insertIn_congr less] at rows
      have shown := attach_public_root under attached
      obtain ⟨left, right⟩ := Prod.mk.inj shown
      rw [left, right]
      exact rows
  | some p =>
      have shown := attach_public_under under attached
      rw [← withChild_congr less] at shown
      exact old.attach (n := op.toNode) (sorts_lastLess op.id) under absent shown

end FugueTree

namespace Engine

/-- Of two tied nodes the one that was applied first stands first; `applied` lists the newest
identifier first. -/
def InArrivalOrder (nodes : List Node) (applied : List Identifier) : Prop :=
  ∀ a b, Before nodes a b → a.Tied b → Before applied b.id a.id

def Arrived (e : Engine) : Prop := InArrivalOrder e.tree.nodes e.applied

/-- A tombstone or its removal does not matter. -/
theorem InArrivalOrder.map {nodes : List Node} {applied : List Identifier}
    (ordered : InArrivalOrder nodes applied) {f : Node → Node}
    (same : ∀ n, (f n).toInsert = n.toInsert) : InArrivalOrder (nodes.map f) applied := by
  intro a b before tied
  obtain ⟨x, y, sub, rfl, rfl⟩ := before.of_map
  have idX : (f x).id = x.id := congrArg InsertOperation.id (same x)
  have idY : (f y).id = y.id := congrArg InsertOperation.id (same y)
  rw [idX, idY]
  refine ordered x y sub ⟨?_, ?_, ?_⟩
  · exact (congrArg InsertOperation.parent (same x)).symm.trans
      (tied.1.trans (congrArg InsertOperation.parent (same y)))
  · exact (congrArg InsertOperation.side (same x)).symm.trans
      (tied.2.1.trans (congrArg InsertOperation.side (same y)))
  · have ranks := tied.2.2
    rwa [idX, idY, show (f x).bind = x.bind from congrArg InsertOperation.bind (same x),
      show (f y).bind = y.bind from congrArg InsertOperation.bind (same y)] at ranks

/-- A change leaves tied nodes in the order in which they were applied. -/
theorem Change.arrived {t t' : FugueTree} {applied applied' : List Identifier}
    (change : Change t applied t' applied') (wf : t.WF) (known : ∀ n ∈ t.nodes, n.id ∈ applied)
    (ordered : InArrivalOrder t.nodes applied) : InArrivalOrder t'.nodes applied' := by
  have older : ∀ id, InArrivalOrder t.nodes (id :: applied) := fun id a b before tied =>
    (ordered a b before tied).mono (List.sublist_cons_self ..)
  cases change with
  | idle => exact ordered
  | spared op fresh => exact older op.id
  | delete op fresh found set =>
      rename_i n
      obtain ⟨t₁, set₁, -, -, list⟩ := wf.setDeleted_spec true
        (some (laterDelete op.id n.deletedBy)) (setDeleted_present set)
      obtain rfl := Except.ok.inj (set₁.symm.trans set)
      rw [list]
      exact (older op.id).map fun n => FugueTree.flag_toInsert ..
  | undelete op fresh set =>
      obtain ⟨t₁, set₁, -, -, list⟩ := wf.setDeleted_spec false none (setDeleted_present set)
      obtain rfl := Except.ok.inj (set₁.symm.trans set)
      rw [list]
      exact (older op.id).map fun n => FugueTree.flag_toInsert ..
  | remove id removed =>
      obtain ⟨-, before, n, after, -, old, new⟩ := wf.tryRemoveLeaf removed
      intro a b here tied
      refine ordered a b (here.mono ?_) tied
      rw [old, new]
      exact (List.Sublist.refl before).append (List.sublist_cons_self n after)
  | @insert t' op fresh attached =>
      have absent : t.hasIdentifier op.id = false := by
        rw [Bool.eq_false_iff]
        intro present
        obtain ⟨n, member, same⟩ := wf.hasIdentifier_iff.mp present
        exact fresh (same ▸ known n member)
      obtain ⟨t₁, attached₁, wf₁, -, first, last, old, new⟩ :=
        wf.attach_spec op (attach_ready attached) absent
      obtain rfl := Except.ok.inj (attached.symm.trans attached₁)
      have rows := wf.attach_last absent attached
      have nodup : t'.nodes.Nodup := wf₁.nodup.of_map
      have part : t.nodes.Sublist t'.nodes := by
        rw [old, new]
        exact (List.Sublist.refl first).append (List.sublist_cons_self ..)
      have members : ∀ x ∈ t'.nodes, x = op.toNode ∨ x ∈ t.nodes := fun x member => by
        rw [new] at member
        rw [old]
        simp only [List.mem_append, List.mem_cons] at member ⊢
        tauto
      intro a b before tied
      rcases members a before.mem.1 with rfl | oldA
      · -- nothing of its rank comes after the new node
        have place := rows.before (by rwa [FugueTree.inorder_public]) tied.1 tied.2.1
        have same := place.2 (Node.siblingLE_of_rank_eq tied.2.2.symm) rfl
        rw [wf₁.eq_of_id_eq before.mem.2 before.mem.1 same] at before
        exact absurd before (before.asymm nodup)
      · rcases members b before.mem.2 with rfl | oldB
        · exact before_cons_iff.mpr (Or.inl ⟨rfl, known a oldA⟩)
        · exact older op.id a b (before.restrict nodup part oldA oldB) tied

variable {e e' : Engine}

theorem Arrived.move (sound : e.Sound) (arrived : e.Arrived) (move : Move e e') : e'.Arrived :=
  move.change.arrived sound.wf sound.known arrived

theorem arrived_new (replicaId : Nat) : (new replicaId).Arrived := fun _ _ before _ =>
  nomatch before.mem.1

theorem Arrived.moves (sound : e.Sound) (arrived : e.Arrived) (moves : Moves e e') : e'.Arrived := by
  have both := moves.keeps (P := fun e => e.Sound ∧ e.Arrived)
    (fun move holds => ⟨holds.1.move move, holds.2.move holds.1 move⟩) ⟨sound, arrived⟩
  exact both.2

/-- In every reachable engine the siblings that rank the same stand in the order of arrival. -/
theorem Reachable.arrived (reachable : e.Reachable) : e.Arrived :=
  reachable.keeps arrived_new fun sound move arrived => arrived.move sound move

end Engine

end ConfluenceEditor
