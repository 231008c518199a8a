/-
Taking a rejected insert out of the tree again.

`tryRemoveLeaf` refuses a node that something is anchored to. It keeps the tree well formed, and the
identifier stays in the applied set, so the engine stays sound.
-/

import ConfluenceEditor.Engine.Sound
import ConfluenceEditor.Library.Detach

namespace ConfluenceEditor

open SidedForest SidedForest.Forest

namespace FugueTree

/-- Unlink a node without children and take it out of the sizes and the index. -/
def tryRemoveLeaf (t : FugueTree) (id : Identifier) : Option FugueTree :=
  match t.get? id with
  | some (node, nil, nil) =>
      let deltaVisible : Int := if node.deleted then 0 else -1
      (detachIn (·.id = id) (TreeNode.updateSize (-1) deltaVisible) t.leftChildren
        t.rightChildren).map fun rows =>
          { leftChildren := rows.1
            rightChildren := rows.2
            visibleSize := t.visibleSize + deltaVisible
            totalSize := t.totalSize + -1
            byId := t.byId.filter (· ≠ id) }
  | _ => none

variable {t t' : FugueTree}

/-- A node that was taken out was a leaf. -/
theorem tryRemoveLeaf_cases {id : Identifier} (removed : t.tryRemoveLeaf id = some t') :
    ∃ node left right, t.get? id = some (node, nil, nil) ∧ node.id = id ∧
      findIn (·.id = id) t.leftChildren t.rightChildren = some (node, nil, nil) ∧
      detachIn (·.id = id) (TreeNode.updateSize (-1) (if node.deleted then 0 else -1))
        t.leftChildren t.rightChildren = some (left, right) ∧
      t' = ⟨left, right, t.visibleSize + (if node.deleted then 0 else -1), t.totalSize + -1,
        t.byId.filter (· ≠ id)⟩ := by
  unfold FugueTree.tryRemoveLeaf at removed
  split at removed
  on_goal 2 => cases removed
  rename_i node lookup
  have present : t.hasIdentifier id = true := by
    by_contra absent
    rw [get?, if_neg absent] at lookup
    cases lookup
  have leaf : findIn (·.id = id) t.leftChildren t.rightChildren = some (node, nil, nil) := by
    rwa [get?, if_pos present] at lookup
  obtain ⟨⟨left, right⟩, detached, rfl⟩ := Option.map_eq_some_iff.mp removed
  exact ⟨node, left, right, lookup, by simpa using (findIn_split leaf).1, leaf, detached, rfl⟩

/-- The public nodes do not see the sizes. -/
theorem WF.tryRemoveLeaf_public (wf : t.WF) {id : Identifier}
    (removed : t.tryRemoveLeaf id = some t') :
    ∃ n : Node, n.id = id ∧ findIn (fun n : Node => decide (n.id = id))
        (t.leftChildren.map TreeNode.toPublicNode) (t.rightChildren.map TreeNode.toPublicNode) =
          some (n, nil, nil) ∧
      detachIn (fun n : Node => decide (n.id = id)) (fun n => n)
        (t.leftChildren.map TreeNode.toPublicNode) (t.rightChildren.map TreeNode.toPublicNode) =
          some (t'.leftChildren.map TreeNode.toPublicNode,
            t'.rightChildren.map TreeNode.toPublicNode) := by
  obtain ⟨node, left, right, -, named, leaf, detached, rfl⟩ := tryRemoveLeaf_cases removed
  refine ⟨node.toPublicNode, named, ?_, map_detachIn TreeNode.toPublicNode (fun _ => rfl)
    (TreeNode.toPublicNode_updateSize (-1) _) detached⟩
  have found := wf.rows.findIn_eq ((SubIn.of_findIn leaf).map TreeNode.toPublicNode)
  rwa [TreeNode.toPublicNode_id, named] at found

/-- The tree stays well formed, and one entry leaves the node list. -/
theorem WF.tryRemoveLeaf (wf : t.WF) {id : Identifier} (removed : t.tryRemoveLeaf id = some t') :
    t'.WF ∧ ∃ before n after, n.id = id ∧ t.nodes = before ++ n :: after ∧
      t'.nodes = before ++ after := by
  obtain ⟨n, named, publicLeaf, shown⟩ := wf.tryRemoveLeaf_public removed
  obtain ⟨node, left, right, -, -, leaf, detached, rfl⟩ := tryRemoveLeaf_cases removed
  obtain ⟨before, after, old, new⟩ := detachIn_split publicLeaf shown
  rw [inorder_public] at old
  have distinct := wf.nodup
  rw [old, List.map_append, List.map_cons, named] at distinct
  have elsewhere : ∀ n ∈ before ++ after, n.id ≠ id := by
    rw [List.nodup_middle] at distinct
    intro n member same
    refine (List.nodup_cons.mp distinct).1 ?_
    rw [← List.map_append, ← same]
    exact List.mem_map_of_mem member
  have visibleDelta : (if node.deleted then 0 else -1 : Int) = -node.visibleWeight := by
    unfold TreeNode.visibleWeight
    split_ifs <;> rfl
  have visiblePath : ∀ b : TreeNode,
      (b.updateSize (-1) (if node.deleted then 0 else -1)).visibleSize =
          b.visibleSize - node.visibleWeight ∧
        (b.updateSize (-1) (if node.deleted then 0 else -1)).visibleWeight = b.visibleWeight :=
    fun b => ⟨by rw [visibleDelta]; rfl, rfl⟩
  have totalPath : ∀ b : TreeNode,
      (b.updateSize (-1) (if node.deleted then 0 else -1)).totalSize =
          b.totalSize - node.totalWeight ∧
        (b.updateSize (-1) (if node.deleted then 0 else -1)).totalWeight = b.totalWeight :=
    fun b => ⟨rfl, rfl⟩
  obtain ⟨visibleSized, visibleTotal⟩ := sized_detachIn wf.visibleSized leaf visiblePath detached
  obtain ⟨totalSized, totalTotal⟩ := sized_detachIn wf.totalSized leaf totalPath detached
  have list : ((left.inorder ++ right.inorder).map TreeNode.toPublicNode) = before ++ after := by
    rw [← new, inorder_map, inorder_map, List.map_append]
  refine ⟨⟨wf.rows.detach publicLeaf shown, fun i => ?_, visibleSized, ?_, totalSized, ?_⟩,
    before, n, after, named, old, list⟩
  · have here := wf.index i
    rw [old] at here
    rw [FugueTree.nodes, list]
    simp only [List.mem_filter, here, decide_not, Bool.not_eq_true', decide_eq_false_iff_not]
    constructor
    · rintro ⟨⟨n, member, rfl⟩, other⟩
      refine ⟨n, ?_, rfl⟩
      rcases List.mem_append.mp member with first | rest
      · exact List.mem_append_left _ first
      · rcases List.mem_cons.mp rest with rfl | last
        · exact absurd named other
        · exact List.mem_append_right _ last
    · rintro ⟨n, member, rfl⟩
      refine ⟨⟨n, ?_, rfl⟩, elsewhere n member⟩
      rcases List.mem_append.mp member with first | last
      · exact List.mem_append_left _ first
      · exact List.mem_append_right _ (List.mem_cons_of_mem _ last)
  · rw [visibleTotal, ← wf.visibleRoot, visibleDelta]
    rfl
  · rw [totalTotal, ← wf.totalRoot]
    rfl

end FugueTree

namespace Engine

/-- Whether the rejected insert could be taken out, and the engine afterwards. The stamp stays
applied. -/
def tryRevertLocalInsert (e : Engine) (id : Identifier) : Bool × Engine :=
  match e.tree.tryRemoveLeaf id with
  | some tree => (true, { e with tree })
  | none => (false, e)

/-- Only the tree changes, and it loses one node at most. -/
theorem Sound.tryRevert_frame {e : Engine} (sound : e.Sound) (id : Identifier) :
    ∃ tree, (e.tryRevertLocalInsert id).2 = { e with tree } ∧ tree.WF ∧
      tree.nodes.Sublist e.tree.nodes := by
  unfold Engine.tryRevertLocalInsert
  cases removed : e.tree.tryRemoveLeaf id with
  | some tree =>
      obtain ⟨wf, before, n, after, -, old, new⟩ := sound.wf.tryRemoveLeaf removed
      refine ⟨tree, rfl, wf, ?_⟩
      rw [old, new]
      exact (List.Sublist.refl before).append (List.sublist_cons_self n after)
  | none => exact ⟨e.tree, rfl, sound.wf, List.Sublist.refl _⟩

theorem Sound.tryRevertLocalInsert {e : Engine} (sound : e.Sound) (id : Identifier) :
    (e.tryRevertLocalInsert id).2.Sound := by
  obtain ⟨tree, reverted, wf, sub⟩ := sound.tryRevert_frame id
  rw [reverted]
  exact ⟨wf, fun m member => sound.known m (sub.subset member), sound.clock⟩

end Engine

end ConfluenceEditor
