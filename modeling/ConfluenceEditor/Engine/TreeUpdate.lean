/-
What `attach` and `setDeleted` do to a well-formed tree.

Both go through `rewrite`, one path rewriting, which is read three times: through the public nodes
(the rows stay placed and sorted, one entry of the node list changes) and through the two stored
sizes (the same change is added along the path). `attach_spec` inserts the new node somewhere into
the node list, and `setDeleted_spec` changes the flags of one node in it.
-/

import ConfluenceEditor.Engine.TreeInvariant

namespace ConfluenceEditor

open SidedForest SidedForest.Forest

namespace FugueTree

variable {t t' : FugueTree}

/-! ### One path rewriting -/

theorem rewrite_cases {id : Identifier} {here : TreeNode → Forest TreeNode → Forest TreeNode →
      TreeNode × Forest TreeNode × Forest TreeNode} {deltaTotal deltaVisible : Int}
    (rewritten : t.rewrite id here deltaTotal deltaVisible = some t') :
    updateIn (·.id = id) (fun a l r => here (a.updateSize deltaTotal deltaVisible) l r)
      (TreeNode.updateSize deltaTotal deltaVisible) t.leftChildren t.rightChildren =
        some (t'.leftChildren, t'.rightChildren) ∧
      t'.totalSize = t.totalSize + deltaTotal ∧ t'.visibleSize = t.visibleSize + deltaVisible ∧
      t'.byId = t.byId := by
  unfold rewrite at rewritten
  split_ifs at rewritten
  obtain ⟨rows, updated, rfl⟩ := Option.map_eq_some_iff.mp rewritten
  exact ⟨updated, rfl, rfl, rfl⟩

theorem WF.rewrite_isSome (wf : t.WF) {id : Identifier}
    (here : TreeNode → Forest TreeNode → Forest TreeNode →
      TreeNode × Forest TreeNode × Forest TreeNode) (deltaTotal deltaVisible : Int)
    (present : t.hasIdentifier id = true) :
    ∃ t', t.rewrite id here deltaTotal deltaVisible = some t' := by
  rw [rewrite, if_pos present]
  obtain ⟨n, member, rfl⟩ := wf.hasIdentifier_iff.mp present
  obtain ⟨a, inside, rfl⟩ := List.mem_map.mp member
  cases updated : updateIn (·.id = a.toPublicNode.id)
      (fun a l r => here (a.updateSize deltaTotal deltaVisible) l r)
      (TreeNode.updateSize deltaTotal deltaVisible) t.leftChildren t.rightChildren with
  | some rows => exact ⟨_, rfl⟩
  | none =>
      rw [updateIn_eq_none_iff, findIn_eq_none_iff] at updated
      exact absurd (decide_eq_true rfl) (updated a inside)

/-- The two stored sizes after a rewriting that changes the node's own sums by the two deltas. -/
theorem WF.rewrite_sized (wf : t.WF) {id : Identifier}
    {here : TreeNode → Forest TreeNode → Forest TreeNode →
      TreeNode × Forest TreeNode × Forest TreeNode} {deltaTotal deltaVisible : Int}
    (rewritten : t.rewrite id here deltaTotal deltaVisible = some t')
    (visible : ∀ a l r, findIn (·.id = id) t.leftChildren t.rightChildren = some (a, l, r) →
      (cons a l r nil).Sized TreeNode.visibleWeight TreeNode.visibleSize →
      let node := here (a.updateSize deltaTotal deltaVisible) l r
      (cons node.1 node.2.1 node.2.2 nil).Sized TreeNode.visibleWeight TreeNode.visibleSize ∧
        (cons node.1 node.2.1 node.2.2 nil).total TreeNode.visibleWeight =
          (cons a l r nil).total TreeNode.visibleWeight + deltaVisible)
    (total : ∀ a l r, findIn (·.id = id) t.leftChildren t.rightChildren = some (a, l, r) →
      (cons a l r nil).Sized TreeNode.totalWeight TreeNode.totalSize →
      let node := here (a.updateSize deltaTotal deltaVisible) l r
      (cons node.1 node.2.1 node.2.2 nil).Sized TreeNode.totalWeight TreeNode.totalSize ∧
        (cons node.1 node.2.1 node.2.2 nil).total TreeNode.totalWeight =
          (cons a l r nil).total TreeNode.totalWeight + deltaTotal) :
    (t'.leftChildren.Sized TreeNode.visibleWeight TreeNode.visibleSize ∧
      t'.rightChildren.Sized TreeNode.visibleWeight TreeNode.visibleSize) ∧
    t'.visibleSize = t'.leftChildren.total TreeNode.visibleWeight +
      t'.rightChildren.total TreeNode.visibleWeight ∧
    (t'.leftChildren.Sized TreeNode.totalWeight TreeNode.totalSize ∧
      t'.rightChildren.Sized TreeNode.totalWeight TreeNode.totalSize) ∧
    t'.totalSize = t'.leftChildren.total TreeNode.totalWeight +
      t'.rightChildren.total TreeNode.totalWeight := by
  obtain ⟨updated, totalSize, visibleSize, -⟩ := rewrite_cases rewritten
  obtain ⟨sizedVisible, sumVisible⟩ :=
    sized_updateIn (TreeNode.updateSize deltaTotal deltaVisible) wf.visibleSized
      (fun a => ⟨rfl, rfl⟩) visible updated
  obtain ⟨sizedTotal, sumTotal⟩ :=
    sized_updateIn (TreeNode.updateSize deltaTotal deltaVisible) wf.totalSized
      (fun a => ⟨rfl, rfl⟩) total updated
  refine ⟨sizedVisible, ?_, sizedTotal, ?_⟩
  · rw [visibleSize, wf.visibleRoot, sumVisible]
  · rw [totalSize, wf.totalRoot, sumTotal]

/-! ### Attaching -/

/-- The tree node that `attach` creates, with the sizes of a visible leaf. -/
def freshNode (op : InsertOperation) : TreeNode :=
  TreeNode.updateSize 1 1 ⟨op.id, op.value, op.bind, false, none, op.parent, op.side, 0, 0⟩

@[simp] theorem toPublicNode_freshNode (op : InsertOperation) :
    (freshNode op).toPublicNode = op.toNode := rfl

theorem map_insertSibling_public (F : Forest TreeNode) (op : InsertOperation) :
    (F.insertSibling siblingLess (freshNode op)).map TreeNode.toPublicNode =
      (F.map TreeNode.toPublicNode).insertSibling Node.siblingLess op.toNode :=
  map_insertSibling Node.siblingLess TreeNode.toPublicNode (fun _ _ => rfl) F

theorem map_withChild_public (op : InsertOperation) (a : TreeNode) (l r : Forest TreeNode) :
    let node := withChild siblingLess op.side (freshNode op) (a.updateSize 1 1) l r
    (node.1.toPublicNode, node.2.1.map TreeNode.toPublicNode,
      node.2.2.map TreeNode.toPublicNode) =
        withChild Node.siblingLess op.side op.toNode a.toPublicNode
          (l.map TreeNode.toPublicNode) (r.map TreeNode.toPublicNode) := by
  cases side : op.side <;> simp [withChild, map_insertSibling_public]

/-- The public rows after attaching under a node. -/
theorem updateIn_public {op : InsertOperation} {p : Identifier}
    (rewritten : t.rewrite p (withChild siblingLess op.side (freshNode op)) 1 1 = some t') :
    updateIn (·.id = p) (withChild Node.siblingLess op.side op.toNode) id
      (t.leftChildren.map TreeNode.toPublicNode) (t.rightChildren.map TreeNode.toPublicNode) =
        some (t'.leftChildren.map TreeNode.toPublicNode,
          t'.rightChildren.map TreeNode.toPublicNode) :=
  map_updateIn TreeNode.toPublicNode (fun _ => rfl) (fun _ => rfl)
    (map_withChild_public op) (rewrite_cases rewritten).1

/-- The public rows after attaching under the root. -/
theorem attach_public_root {op : InsertOperation} (orphan : op.parent = none)
    (attached : t.attach op.id op.value op.bind op.parent op.side = .ok t') :
    (t'.leftChildren.map TreeNode.toPublicNode, t'.rightChildren.map TreeNode.toPublicNode) =
      insertIn Node.siblingLess op.side op.toNode (t.leftChildren.map TreeNode.toPublicNode)
        (t.rightChildren.map TreeNode.toPublicNode) := by
  have node : TreeNode.updateSize 1 1
      ⟨op.id, op.value, op.bind, false, none, none, op.side, 0, 0⟩ = freshNode op := by
    rw [freshNode, orphan]
  unfold attach at attached
  simp only [orphan, node] at attached
  obtain rfl := Except.ok.inj attached
  exact map_insertIn Node.siblingLess TreeNode.toPublicNode (fun _ _ => rfl) op.side
    (freshNode op) t.leftChildren t.rightChildren

/-- The public rows after attaching under a node. -/
theorem attach_public_under {op : InsertOperation} {p : Identifier} (under : op.parent = some p)
    (attached : t.attach op.id op.value op.bind op.parent op.side = .ok t') :
    updateIn (·.id = p) (withChild Node.siblingLess op.side op.toNode) id
      (t.leftChildren.map TreeNode.toPublicNode) (t.rightChildren.map TreeNode.toPublicNode) =
        some (t'.leftChildren.map TreeNode.toPublicNode,
          t'.rightChildren.map TreeNode.toPublicNode) := by
  unfold attach at attached
  simp only [under] at attached
  split at attached
  · cases attached
  · rename_i t₁ rewritten
    obtain rfl := Except.ok.inj attached
    have rewritten' : t.rewrite p (withChild siblingLess op.side (freshNode op)) 1 1 = some t₁ := by
      rw [freshNode, under]
      exact rewritten
    have shown := updateIn_public rewritten'
    exact shown

theorem index_of_split (wf : t.WF) {op : InsertOperation} {before after : List Node}
    (old : t.nodes = before ++ after) (new : t'.nodes = before ++ op.toNode :: after)
    (byId : t'.byId = op.id :: t.byId) (id : Identifier) :
    id ∈ t'.byId ↔ ∃ n ∈ t'.nodes, n.id = id := by
  have here := wf.index id
  rw [old] at here
  rw [byId, new, List.mem_cons, here]
  simp only [List.mem_append, List.mem_cons]
  constructor
  · rintro (rfl | ⟨n, inside | inside, same⟩)
    · exact ⟨op.toNode, Or.inr (Or.inl rfl), rfl⟩
    · exact ⟨n, Or.inl inside, same⟩
    · exact ⟨n, Or.inr (Or.inr inside), same⟩
  · rintro ⟨n, inside | rfl | inside, same⟩
    · exact Or.inr ⟨n, Or.inl inside, same⟩
    · exact Or.inl same.symm
    · exact Or.inr ⟨n, Or.inr inside, same⟩

theorem WF.fresh_of_not_has (wf : t.WF) {id : Identifier} (fresh : t.hasIdentifier id = false) :
    ∀ n ∈ t.nodes, n.id ≠ id := by
  intro n member same
  rw [wf.hasIdentifier_iff.mpr ⟨n, member, same⟩] at fresh
  cases fresh

section Attach

variable {op : InsertOperation}

/-- Attaching under the root. -/
theorem WF.attach_root (wf : t.WF) (orphan : op.parent = none)
    (fresh : t.hasIdentifier op.id = false) :
    ∃ t', t.attach op.id op.value op.bind op.parent op.side = .ok t' ∧ t'.WF ∧
      t'.byId = op.id :: t.byId ∧
      (t'.leftChildren, t'.rightChildren) =
        insertIn siblingLess op.side (freshNode op) t.leftChildren t.rightChildren ∧
      ∃ before after, t.nodes = before ++ after ∧ t'.nodes = before ++ op.toNode :: after := by
  have absent := wf.fresh_of_not_has fresh
  obtain ⟨visibleSized, visibleTotal⟩ := sized_insertIn siblingLess wf.visibleSized
    (show (freshNode op).visibleSize = (freshNode op).visibleWeight from rfl) op.side
  obtain ⟨totalSized, totalTotal⟩ := sized_insertIn siblingLess wf.totalSized
    (show (freshNode op).totalSize = (freshNode op).totalWeight from rfl) op.side
  obtain ⟨before, after, old, new⟩ := insertIn_split siblingLess op.side (freshNode op)
    t.leftChildren t.rightChildren
  have shown := map_insertIn Node.siblingLess TreeNode.toPublicNode (fun _ _ => rfl) op.side
    (freshNode op) t.leftChildren t.rightChildren
  have rows := wf.rows.insertIn (n := op.toNode) Node.sorts_siblingLess orphan
    (by rw [inorder_public]; exact absent)
  set t' : FugueTree :=
    { leftChildren := (insertIn siblingLess op.side (freshNode op) t.leftChildren
        t.rightChildren).1
      rightChildren := (insertIn siblingLess op.side (freshNode op) t.leftChildren
        t.rightChildren).2
      visibleSize := t.visibleSize + 1
      totalSize := t.totalSize + 1
      byId := op.id :: t.byId } with defn
  have listOld : t.nodes = before.map TreeNode.toPublicNode ++ after.map TreeNode.toPublicNode := by
    rw [nodes, old, List.map_append]
  have listNew : t'.nodes = before.map TreeNode.toPublicNode ++
      op.toNode :: after.map TreeNode.toPublicNode := by
    rw [nodes, new, List.map_append, List.map_cons, toPublicNode_freshNode]
  have attached : t.attach op.id op.value op.bind op.parent op.side = .ok t' := by
    rw [defn, freshNode, orphan]
    rfl
  refine ⟨t', attached, ⟨?_, index_of_split wf listOld listNew rfl, visibleSized, ?_, totalSized,
    ?_⟩, rfl, rfl, _, _, listOld, listNew⟩
  · obtain ⟨left, right⟩ := Prod.mk.inj shown
    rw [show t'.leftChildren.map TreeNode.toPublicNode = _ from left,
      show t'.rightChildren.map TreeNode.toPublicNode = _ from right]
    exact rows
  · rw [visibleTotal, ← wf.visibleRoot]
    rfl
  · rw [totalTotal, ← wf.totalRoot]
    rfl

/-- Attaching under a node. -/
theorem WF.attach_under (wf : t.WF) {p : Identifier} (under : op.parent = some p)
    (present : t.hasIdentifier p = true) (fresh : t.hasIdentifier op.id = false) :
    ∃ t', t.attach op.id op.value op.bind op.parent op.side = .ok t' ∧ t'.WF ∧
      t'.byId = op.id :: t.byId ∧
      updateIn (·.id = p) (withChild Node.siblingLess op.side op.toNode) id
        (t.leftChildren.map TreeNode.toPublicNode) (t.rightChildren.map TreeNode.toPublicNode) =
          some (t'.leftChildren.map TreeNode.toPublicNode,
            t'.rightChildren.map TreeNode.toPublicNode) ∧
      ∃ before after, t.nodes = before ++ after ∧ t'.nodes = before ++ op.toNode :: after := by
  have absent := wf.fresh_of_not_has fresh
  obtain ⟨t₁, rewritten⟩ := wf.rewrite_isSome
    (withChild siblingLess op.side (freshNode op)) 1 1 present
  obtain ⟨visibleSized, visibleRoot, totalSized, totalRoot⟩ := wf.rewrite_sized rewritten
    (fun a l r _ => sized_withChild TreeNode.visibleWeight TreeNode.visibleSize
      (freshNode op) a (a.updateSize 1 1) rfl rfl rfl op.side)
    (fun a l r _ => sized_withChild TreeNode.totalWeight TreeNode.totalSize
      (freshNode op) a (a.updateSize 1 1) rfl rfl rfl op.side)
  have shown := updateIn_public rewritten
  obtain ⟨before, after, old, new⟩ := Rows.updateIn_withChild_split shown
  rw [inorder_public] at old
  set t' : FugueTree := { t₁ with byId := op.id :: t.byId } with defn
  have listNew : t'.nodes = before ++ op.toNode :: after := by
    rw [← inorder_public]
    exact new
  have attached : t.attach op.id op.value op.bind op.parent op.side = .ok t' := by
    have rewritten' := rewritten
    rw [freshNode, under] at rewritten'
    rw [under, attach]
    simp only [rewritten', defn]
  refine ⟨t', attached, ⟨?_, index_of_split wf old listNew rfl, visibleSized, visibleRoot,
    totalSized, totalRoot⟩, rfl, shown, before, after, old, listNew⟩
  exact wf.rows.attach (n := op.toNode) Node.sorts_siblingLess under
    (by rw [inorder_public]; exact absent) shown

/-- A ready, fresh insert is attached: one entry enters the node list. -/
theorem WF.attach_spec (wf : t.WF) (op : InsertOperation)
    (ready : ∀ p, op.parent = some p → t.hasIdentifier p = true)
    (fresh : t.hasIdentifier op.id = false) :
    ∃ t', t.attach op.id op.value op.bind op.parent op.side = .ok t' ∧ t'.WF ∧
      t'.byId = op.id :: t.byId ∧
      ∃ before after, t.nodes = before ++ after ∧ t'.nodes = before ++ op.toNode :: after := by
  cases named : op.parent with
  | none =>
      obtain ⟨t', attached, wf', byId, -, split⟩ := wf.attach_root named fresh
      exact ⟨t', named ▸ attached, wf', byId, split⟩
  | some p =>
      obtain ⟨t', attached, wf', byId, -, split⟩ := wf.attach_under named (ready p named) fresh
      exact ⟨t', named ▸ attached, wf', byId, split⟩

end Attach

/-! ### Tombstones -/

/-- The change of one public node by `setDeleted`. -/
def flag (id : Identifier) (deleted : Bool) (deletedBy : Option Identifier) (n : Node) : Node :=
  if n.id = id then { n with deleted, deletedBy } else n

@[simp] theorem flag_id (id : Identifier) (deleted : Bool) (deletedBy : Option Identifier)
    (n : Node) : (flag id deleted deletedBy n).id = n.id := by
  unfold flag
  split_ifs <;> rfl

@[simp] theorem flag_toInsert (id : Identifier) (deleted : Bool) (deletedBy : Option Identifier)
    (n : Node) : (flag id deleted deletedBy n).toInsert = n.toInsert := by
  unfold flag
  split_ifs <;> rfl

/-- The public rows after the flags of a node were set. -/
theorem WF.setDeleted_public (wf : t.WF) {target : Identifier} {deleted : Bool}
    {deletedBy : Option Identifier} (set : t.setDeleted target deleted deletedBy = .ok t') :
    t'.leftChildren.map TreeNode.toPublicNode =
        (t.leftChildren.map TreeNode.toPublicNode).map (flag target deleted deletedBy) ∧
      t'.rightChildren.map TreeNode.toPublicNode =
        (t.rightChildren.map TreeNode.toPublicNode).map (flag target deleted deletedBy) := by
  unfold setDeleted at set
  split at set
  · cases set
  · simp only at set
    split at set
    · cases set
    · rename_i t₁ rewritten
      obtain rfl := Except.ok.inj set
      refine Rows.updateIn_relabel wf.rows.distinct ?_
      exact map_updateIn TreeNode.toPublicNode (fun _ => rfl) (fun _ => rfl) (fun _ _ _ => rfl)
        (rewrite_cases rewritten).1

/-- Setting the flags of a present node rewrites its entry of the node list. -/
theorem WF.setDeleted_spec (wf : t.WF) {target : Identifier} (deleted : Bool)
    (deletedBy : Option Identifier) (present : t.hasIdentifier target = true) :
    ∃ t', t.setDeleted target deleted deletedBy = .ok t' ∧ t'.WF ∧ t'.byId = t.byId ∧
      t'.nodes = t.nodes.map (flag target deleted deletedBy) := by
  obtain ⟨n, member, named⟩ := wf.hasIdentifier_iff.mp present
  obtain ⟨⟨node, l, r⟩, lookup, -⟩ :=
    Option.map_eq_some_iff.mp (wf.nodeByIdentifier_eq_some_iff.mpr ⟨member, named⟩)
  set delta : Int := if node.deleted = deleted then 0 else if deleted then -1 else 1 with hdelta
  obtain ⟨t', rewritten⟩ := wf.rewrite_isSome
    (fun a l r => ({ a with deleted, deletedBy }, l, r)) 0 delta present
  have flipped : ∀ {a : TreeNode}, a = node →
      ({ a.updateSize 0 delta with deleted, deletedBy } : TreeNode).visibleWeight =
        a.visibleWeight + delta := by
    rintro a rfl
    rw [hdelta]
    unfold TreeNode.visibleWeight
    cases deleted <;> cases a.deleted <;> rfl
  have theNode : ∀ a l' r', findIn (·.id = target) t.leftChildren t.rightChildren =
      some (a, l', r') → a = node := by
    intro a l' r' found
    rw [get?, if_pos present, found] at lookup
    exact (Prod.mk.inj (Option.some.inj lookup)).1
  obtain ⟨visibleSized, visibleRoot, totalSized, totalRoot⟩ := wf.rewrite_sized rewritten
    (fun a l' r' found sized => sized_relabel TreeNode.visibleWeight TreeNode.visibleSize a
      { a.updateSize 0 delta with deleted, deletedBy } rfl (flipped (theNode a l' r' found)) sized)
    (fun a l' r' _ sized => sized_relabel TreeNode.totalWeight TreeNode.totalSize a
      { a.updateSize 0 delta with deleted, deletedBy } rfl rfl sized)
  obtain ⟨-, -, -, byId⟩ := rewrite_cases rewritten
  have set : t.setDeleted target deleted deletedBy = .ok t' := by
    rw [setDeleted, lookup]
    simp only [← hdelta, rewritten]
  obtain ⟨left, right⟩ := wf.setDeleted_public set
  have list : t'.nodes = t.nodes.map (flag target deleted deletedBy) := by
    rw [← inorder_public, left, right, inorder_map (flag target deleted deletedBy),
      inorder_map (flag target deleted deletedBy), ← List.map_append, inorder_public]
  refine ⟨t', set, ⟨?_, ?_, visibleSized, visibleRoot, totalSized, totalRoot⟩, byId, list⟩
  · rw [left, right]
    refine (Rows.map_iff (flag target deleted deletedBy)).mpr ?_
    have same : ∀ m : Node, (flag target deleted deletedBy m).parent = m.parent ∧
        (flag target deleted deletedBy m).side = m.side := fun m =>
      ⟨congrArg InsertOperation.parent (flag_toInsert target deleted deletedBy m),
        congrArg InsertOperation.side (flag_toInsert target deleted deletedBy m)⟩
    simp only [flag_id, same, Node.siblingLE, flag_toInsert]
    exact wf.rows
  · intro i
    rw [byId, wf.index, list]
    simp

end FugueTree

end ConfluenceEditor
