/-
The visible index and the placement of a local insert.

`nodeAtVisible_eq` says that the walk over stored sizes indexes the visible nodes, so its
internal-bug branch is never taken. `decidePlacement_spec` says that an insertion at a visible index
gets a position (`Placed`) that no node of the tree has yet, and that a node attached there stands
immediately after its left origin.
-/

import ConfluenceEditor.Engine.TreeUpdate

namespace ConfluenceEditor

open SidedForest SidedForest.Forest

namespace FugueTree

/-! ### The walk over stored sizes -/

/-- The visible tree nodes of a row. -/
def visibleRow (F : Forest TreeNode) : List TreeNode := F.inorder.filter fun a => !a.deleted

theorem total_visibleWeight (F : Forest TreeNode) :
    F.total TreeNode.visibleWeight = (visibleRow F).length := by
  rw [total_eq_sum, visibleRow]
  induction F.inorder with
  | nil => rfl
  | cons a l ih =>
      rw [List.map_cons, List.sum_cons, ih, TreeNode.visibleWeight]
      cases deleted : a.deleted <;> simp [deleted]
      omega

theorem visibleRow_cons (a : TreeNode) (l r t : Forest TreeNode) :
    visibleRow (cons a l r t) =
      visibleRow l ++ ((if a.deleted then [] else [a]) ++ (visibleRow r ++ visibleRow t)) := by
  cases deleted : a.deleted <;> simp [visibleRow, inorder, deleted]

/-- The walk ends at the visible node with the given index, or past the row with the rest. -/
theorem walk_eq {F : Forest TreeNode}
    (sized : F.Sized TreeNode.visibleWeight TreeNode.visibleSize) (k : Nat) :
    walk F k = match (visibleRow F)[k]? with
      | some a => .found a
      | none => .past ((k : Int) - (visibleRow F).length) := by
  induction F generalizing k with
  | nil => simp [walk, visibleRow]
  | cons a l r t ihl ihr iht =>
      obtain ⟨size, sl, sr, st⟩ := sized
      rw [total_visibleWeight, total_visibleWeight, TreeNode.visibleWeight] at size
      rw [walk, visibleRow_cons]
      by_cases here : (k : Int) < a.visibleSize
      · rw [if_pos here, ihl sl]
        by_cases inl : k < (visibleRow l).length
        · rw [List.getElem?_append_left inl, List.getElem?_eq_getElem inl]
        · obtain ⟨j, rfl⟩ : ∃ j, k = (visibleRow l).length + j := 
            ⟨k - (visibleRow l).length, by omega⟩
          have rest : ((visibleRow l).length + j : Nat) - ((visibleRow l).length : Int) = (j : Nat) := by
            omega
          rw [List.getElem?_eq_none (by omega), List.getElem?_append_right (by omega),
            Nat.add_sub_cancel_left]
          simp only [rest]
          cases deleted : a.deleted with
          | true =>
              simp only [deleted, if_true] at size
              have inr : j < (visibleRow r).length := by omega
              simp only [if_true, List.nil_append]
              rw [List.getElem?_append_left inr, ihr sr, List.getElem?_eq_getElem inr]
              rfl
          | false =>
              simp only [deleted, Bool.false_eq_true, if_false] at size
              simp only [Bool.false_eq_true, if_false, List.cons_append, List.nil_append]
              cases j with
              | zero => rfl
              | succ i =>
                  have inr : i < (visibleRow r).length := by omega
                  have step : ((i + 1 : Nat) : Int) - 1 = (i : Nat) := by omega
                  have positive : ¬ ((i + 1 : Nat) : Int) = 0 := by omega
                  rw [if_neg positive, step, ihr sr, List.getElem?_eq_getElem inr,
                    List.getElem?_cons_succ, List.getElem?_append_left inr,
                    List.getElem?_eq_getElem inr]
                  rfl
      · rw [if_neg here]
        have rest : (k : Int) - a.visibleSize = ((k - a.visibleSize.toNat : Nat) : Int) := by
          cases deleted : a.deleted <;> simp only [deleted] at size <;> omega
        rw [rest, iht st]
        cases deleted : a.deleted with
        | true =>
            simp only [deleted, if_true] at size
            rw [List.getElem?_append_right (by omega), if_pos rfl, List.nil_append,
              List.getElem?_append_right (by omega)]
            have same : k - a.visibleSize.toNat =
                k - (visibleRow l).length - (visibleRow r).length := by omega
            rw [same]
            cases (visibleRow t)[k - (visibleRow l).length - (visibleRow r).length]? with
            | some b => rfl
            | none =>
                simp only [List.length_append, Walk.past.injEq]
                omega
        | false =>
            simp only [deleted, Bool.false_eq_true, if_false] at size
            rw [List.getElem?_append_right (by omega), if_neg (by simp),
              List.getElem?_append_right (by simp; omega),
              List.getElem?_append_right (by simp; omega)]
            have same : k - a.visibleSize.toNat =
                k - (visibleRow l).length - [a].length - (visibleRow r).length := by
              simp only [List.length_cons, List.length_nil]
              omega
            rw [same]
            cases (visibleRow t)[k - (visibleRow l).length - [a].length -
                (visibleRow r).length]? with
            | some b => rfl
            | none =>
                simp only [List.length_append, List.length_cons, List.length_nil,
                  Walk.past.injEq]
                omega

variable {t : FugueTree}

theorem visible_eq (t : FugueTree) :
    t.visible = (visibleRow t.leftChildren ++ visibleRow t.rightChildren).map
      TreeNode.toPublicNode := by
  simp [visible, nodes, visibleRow, List.filter_map, Function.comp_def]

theorem WF.visibleSize_eq (wf : t.WF) : t.visibleSize = t.visible.length := by
  rw [wf.visibleRoot, total_visibleWeight, total_visibleWeight, visible_eq]
  simp

/-- The visible index is the index into the visible nodes; the walk never runs off the tree. -/
theorem WF.nodeAtVisible_eq (wf : t.WF) (visibleIndex : Int) :
    t.nodeAtVisible visibleIndex =
      .ok (if visibleIndex < 0 then none else t.visible[visibleIndex.toNat]?) := by
  unfold nodeAtVisible
  rw [wf.visibleSize_eq]
  by_cases negative : visibleIndex < 0
  · rw [if_pos (Or.inl negative), if_pos negative]
  · rw [if_neg negative]
    by_cases beyond : visibleIndex ≥ t.visible.length
    · rw [if_pos (Or.inr beyond), List.getElem?_eq_none (by omega)]
    · rw [if_neg (by omega)]
      obtain ⟨k, rfl⟩ := Int.eq_ofNat_of_zero_le (not_lt.mp negative)
      have inside : k < t.visible.length := by omega
      rw [visible_eq] at inside ⊢
      rw [List.length_map, List.length_append] at inside
      rw [walk_eq wf.visibleSized.1, Int.toNat_natCast, List.getElem?_map]
      by_cases inl : k < (visibleRow t.leftChildren).length
      · rw [List.getElem?_append_left inl, List.getElem?_eq_getElem inl]
        rfl
      · have rest : (k : Int) - (visibleRow t.leftChildren).length =
            ((k - (visibleRow t.leftChildren).length : Nat) : Int) := by omega
        have inr : k - (visibleRow t.leftChildren).length <
            (visibleRow t.rightChildren).length := by omega
        rw [List.getElem?_append_right (by omega), List.getElem?_eq_none (by omega)]
        simp only [rest, walk_eq wf.visibleSized.2, List.getElem?_eq_getElem inr]
        rfl

/-! ### Where a local insert goes -/

/-- What the named parent is to the split: a right child follows its parent at once, a left child
precedes it at once, and a child of the root comes last. -/
def Adjacent (parent : Option Identifier) (side : Side) (before after : List Node) : Prop :=
  match parent, side with
  | none, _ => after = []
  | some p, .R => ∃ first n, before = first ++ [n] ∧ n.id = p
  | some p, .L => ∃ n last, after = n :: last ∧ n.id = p

/-- A position for a new node: it splits the node list, no node stands there yet, and attaching
there puts the new node at the split. -/
structure Position (t : FugueTree) (parent : Option Identifier) (side : Side)
    (before after : List Node) : Prop where
  split : t.nodes = before ++ after
  free : ∀ n ∈ t.nodes, ¬ (n.parent = parent ∧ n.side = side)
  ready : ∀ p, parent = some p → t.hasIdentifier p = true
  rootRight : parent = none → side = .R
  adjacent : Adjacent parent side before after
  attach : ∀ op : InsertOperation, op.parent = parent → op.side = side →
    t.hasIdentifier op.id = false →
    ∃ t', t.attach op.id op.value op.bind op.parent op.side = .ok t' ∧ t'.WF ∧
      t'.byId = op.id :: t.byId ∧ t'.nodes = before ++ op.toNode :: after

theorem WF.public_children (wf : t.WF) {a : TreeNode} {l r : Forest TreeNode}
    (sub : SubIn a l r t.leftChildren t.rightChildren) (side : Side) (n : Node) :
    (n ∈ t.nodes ∧ n.parent = some a.id ∧ n.side = side) ↔
      n ∈ (side.pick (l.map TreeNode.toPublicNode) (r.map TreeNode.toPublicNode)).roots := by
  have children := wf.rows.children_of_sub (sub.map TreeNode.toPublicNode) side n
  rw [inorder_public] at children
  exact children

theorem eq_of_split {before before' after after' : List Node} {n : Node}
    (distinct : ((before ++ n :: after).map Node.id).Nodup)
    (same : before ++ n :: after = before' ++ n :: after') : before = before' ∧ after = after' := by
  have nodup := distinct.of_map
  have notBefore : n ∉ before := by
    rw [List.nodup_append] at nodup
    exact fun member => nodup.2.2 n member n (by simp) rfl
  have notAfter : n ∉ after := by
    rw [List.nodup_append, List.nodup_cons] at nodup
    exact nodup.2.1.1
  exact ((List.append_cons_inj_of_notMem notBefore notAfter).mp same).imp_right And.right

/-- What is kept before an entry counts the index of that entry among what is kept. -/
theorem length_filter_before {before after : List Node} {p : Node → Bool} {n : Node} {k : Nat}
    (distinct : (before ++ n :: after).Nodup)
    (here : ((before ++ n :: after).filter p)[k]? = some n) : (before.filter p).length = k := by
  have kept : p n = true := (List.mem_filter.mp (List.mem_of_getElem? here)).2
  have distinct' := distinct.filter p
  rw [List.filter_append, List.filter_cons_of_pos kept] at here distinct'
  refine (List.getElem?_inj (by simp) distinct').mp ?_
  rw [here, List.getElem?_append_right (le_refl _), Nat.sub_self]
  rfl

/-- The right child position of a node without right children. -/
theorem WF.position_right (wf : t.WF) {a : TreeNode} {l : Forest TreeNode}
    (sub : SubIn a l nil t.leftChildren t.rightChildren) {before after : List Node}
    (split : t.nodes = before ++ a.toPublicNode :: after) :
    t.Position (some a.id) .R (before ++ [a.toPublicNode]) after where
  split := by simp [split]
  free n member := fun ⟨under, onSide⟩ => by
    have child := (wf.public_children sub .R n).mp ⟨member, under, onSide⟩
    simp at child
  ready p same := by
    obtain rfl := Option.some.inj same
    exact wf.hasIdentifier_iff.mpr ⟨a.toPublicNode, by simp [split], rfl⟩
  rootRight absurd := by cases absurd
  adjacent := ⟨before, a.toPublicNode, rfl, rfl⟩
  attach op under onSide fresh := by
    have present : t.hasIdentifier a.id = true :=
      wf.hasIdentifier_iff.mpr ⟨a.toPublicNode, by simp [split], rfl⟩
    obtain ⟨t', attached, wf', byId, updated, -⟩ := wf.attach_under under present fresh
    rw [onSide] at updated
    obtain ⟨before', after', old, new⟩ := Rows.updateIn_firstRight
      (wf.rows.findIn_eq (sub.map TreeNode.toPublicNode)) updated
    rw [inorder_public, split] at old
    rw [inorder_public] at new
    obtain ⟨rfl, rfl⟩ := eq_of_split (split ▸ wf.nodup) old
    exact ⟨t', attached, wf', byId, by rw [new, List.append_assoc]; rfl⟩

/-- The left child position of a node without left children. -/
theorem WF.position_left (wf : t.WF) {a : TreeNode} {r : Forest TreeNode}
    (sub : SubIn a nil r t.leftChildren t.rightChildren) {before after : List Node}
    (split : t.nodes = before ++ a.toPublicNode :: after) :
    t.Position (some a.id) .L before (a.toPublicNode :: after) where
  split := split
  free n member := fun ⟨under, onSide⟩ => by
    have child := (wf.public_children sub .L n).mp ⟨member, under, onSide⟩
    simp at child
  ready p same := by
    obtain rfl := Option.some.inj same
    exact wf.hasIdentifier_iff.mpr ⟨a.toPublicNode, by simp [split], rfl⟩
  rootRight absurd := by cases absurd
  adjacent := ⟨a.toPublicNode, after, rfl, rfl⟩
  attach op under onSide fresh := by
    have present : t.hasIdentifier a.id = true :=
      wf.hasIdentifier_iff.mpr ⟨a.toPublicNode, by simp [split], rfl⟩
    obtain ⟨t', attached, wf', byId, updated, -⟩ := wf.attach_under under present fresh
    rw [onSide] at updated
    obtain ⟨before', after', old, new⟩ := Rows.updateIn_firstLeft
      (wf.rows.findIn_eq (sub.map TreeNode.toPublicNode)) updated
    rw [inorder_public, split] at old
    rw [inorder_public] at new
    obtain ⟨rfl, rfl⟩ := eq_of_split (split ▸ wf.nodup) old
    exact ⟨t', attached, wf', byId, new⟩

/-- The position after a node: its first right child, or left of what follows it. -/
theorem WF.position_after (wf : t.WF) {a : TreeNode} {l r : Forest TreeNode}
    (sub : SubIn a l r t.leftChildren t.rightChildren) {before after : List Node}
    (split : t.nodes = before ++ a.toPublicNode :: after) :
    t.Position (placeAfter (some a.id) r).1 (placeAfter (some a.id) r).2
      (before ++ [a.toPublicNode]) after := by
  cases r with
  | nil => exact wf.position_right sub split
  | cons c cl cr ct =>
      obtain ⟨rr, inner⟩ := sub_leftmost c cl cr ct
      have subNext := sub.trans (Or.inr inner)
      -- the leftmost node of the right row is the next node of the document
      obtain ⟨first, last, whole⟩ := sub.split
      have head := head?_inorder_cons c cl cr ct
      obtain ⟨rest, tail⟩ : ∃ rest, (cons c cl cr ct).inorder = leftmost c cl :: rest :=
        List.head?_eq_some_iff.mp head
      have list : t.nodes = (first ++ l.inorder).map TreeNode.toPublicNode ++
          a.toPublicNode :: ((leftmost c cl).toPublicNode ::
            (rest ++ last).map TreeNode.toPublicNode) := by
        rw [nodes, whole, tail]
        simp
      obtain ⟨rfl, rfl⟩ := eq_of_split (split ▸ wf.nodup) (split.symm.trans list)
      exact wf.position_left subNext (by rw [split, List.append_assoc]; rfl)

/-- The position at the start of the document: the end of the root's left row. -/
theorem WF.position_first (wf : t.WF) :
    t.Position (placeAfter none t.rightChildren).1 (placeAfter none t.rightChildren).2
      (t.leftChildren.inorder.map TreeNode.toPublicNode)
      (t.rightChildren.inorder.map TreeNode.toPublicNode) := by
  cases right : t.rightChildren with
  | nil =>
      refine ⟨by simp [nodes, right], fun n member => ?_, fun p same => ?_, fun _ => rfl, rfl,
        fun op orphan onSide fresh => ?_⟩
      · rintro ⟨orphan, onSide⟩
        have root := (wf.rows.mem_roots .R n).mp ⟨by rwa [inorder_public], orphan, onSide⟩
        simp [right] at root
      · cases same
      · obtain ⟨t', attached, wf', byId, rows, -⟩ := wf.attach_root orphan fresh
        refine ⟨t', attached, wf', byId, ?_⟩
        rw [onSide, right] at rows
        obtain ⟨sameLeft, sameRight⟩ := Prod.mk.inj rows
        rw [nodes, sameLeft, sameRight]
        simp [insertSibling, inorder]
  | cons c cl cr ct =>
      obtain ⟨rr, inner⟩ := sub_leftmost c cl cr ct
      obtain ⟨rest, tail⟩ : ∃ rest, (cons c cl cr ct).inorder = leftmost c cl :: rest :=
        List.head?_eq_some_iff.mp (head?_inorder_cons c cl cr ct)
      rw [tail]
      exact wf.position_left (Or.inr (right ▸ inner)) (by
        simp [nodes, right, tail, leftmostDescendant])

/-- `before` ends with the left origin of visible index `k`: the visible node before it, or the
root's left row at the start of the document. -/
def EndsAtOrigin (t : FugueTree) (before : List Node) : Nat → Prop
  | 0 => before = t.leftChildren.inorder.map TreeNode.toPublicNode
  | i + 1 => ∃ first n, before = first ++ [n] ∧ t.visible[i]? = some n

/-- Without a left child of the root, the document starts in the root's right row. -/
theorem WF.leftChildren_eq_nil (wf : t.WF)
    (rootRight : ∀ n ∈ t.nodes, n.parent = none → n.side = .R) : t.leftChildren = nil := by
  cases left : t.leftChildren with
  | nil => rfl
  | cons c cl cr ct =>
      have root : c.toPublicNode ∈ (t.leftChildren.map TreeNode.toPublicNode).roots := by
        simp [left]
      obtain ⟨member, orphan, onSide⟩ := (wf.rows.mem_roots .L c.toPublicNode).mpr root
      rw [inorder_public] at member
      rw [rootRight _ member orphan] at onSide
      cases onSide

/-- A document without left children of the root has a right one, unless it is empty. -/
theorem WF.exists_root (wf : t.WF) (rootRight : ∀ n ∈ t.nodes, n.parent = none → n.side = .R)
    (inhabited : t.nodes ≠ []) : ∃ n ∈ t.nodes, n.parent = none ∧ n.side = .R := by
  have left := wf.leftChildren_eq_nil rootRight
  cases right : t.rightChildren with
  | nil => exact absurd (by simp [nodes, left, right]) inhabited
  | cons c cl cr ct =>
      have root : c.toPublicNode ∈ (t.rightChildren.map TreeNode.toPublicNode).roots := by
        simp [right]
      obtain ⟨member, placed⟩ := (wf.rows.mem_roots .R c.toPublicNode).mpr root
      rw [inorder_public] at member
      exact ⟨_, member, placed⟩

/-- A visible index outside the document throws. -/
theorem WF.decidePlacement_outside (wf : t.WF) {visibleIndex : Int}
    (outside : visibleIndex < 0 ∨ (t.visible.length : Int) < visibleIndex) :
    ∃ message, t.decidePlacement visibleIndex = .error message := by
  have notFirst : visibleIndex ≠ 0 := by omega
  have missing : t.nodeAtVisible (visibleIndex - 1) = .ok none := by
    rw [wf.nodeAtVisible_eq]
    split_ifs with negative
    · rfl
    · rw [List.getElem?_eq_none (by omega)]
  refine ⟨"FugueTree: visible index " ++ toString (visibleIndex - 1) ++ " out of range", ?_⟩
  rw [decidePlacement, if_neg notFirst, nodeAtVisibleRequired, missing]
  rfl

/-- An insertion at a visible index gets a free position, immediately after its left origin. -/
theorem WF.decidePlacement_spec (wf : t.WF) (k : Nat) (inside : k ≤ t.visible.length) :
    ∃ parent side before after, t.decidePlacement k = .ok (parent, side) ∧
      t.Position parent side before after ∧ t.EndsAtOrigin before k := by
  cases k with
  | zero => exact ⟨_, _, _, _, rfl, wf.position_first, rfl⟩
  | succ i =>
      have bound : i < t.visible.length := inside
      have visible : t.visible[i] ∈ t.nodes := (List.mem_filter.mp (List.getElem_mem bound)).1
      obtain ⟨⟨a, l, r⟩, lookup, same⟩ := Option.map_eq_some_iff.mp
        (wf.nodeByIdentifier_eq_some_iff.mpr ⟨visible, rfl⟩)
      obtain ⟨-, sub⟩ := get?_sub lookup
      obtain ⟨first, last, whole⟩ := sub.split
      have list : t.nodes = (first ++ l.inorder).map TreeNode.toPublicNode ++
          a.toPublicNode :: (r.inorder ++ last).map TreeNode.toPublicNode := by
        rw [nodes, whole]
        simp
      refine ⟨_, _, _, _, ?_, wf.position_after sub list, _, a.toPublicNode, rfl, ?_⟩
      · have step : ((i + 1 : Nat) : Int) - 1 = (i : Nat) := by omega
        have notFirst : ¬ ((i + 1 : Nat) : Int) = 0 := by omega
        have found : t.nodeAtVisible (i : Nat) = .ok (some t.visible[i]) := by
          rw [wf.nodeAtVisible_eq, if_neg (by omega), Int.toNat_natCast,
            List.getElem?_eq_getElem bound]
        rw [decidePlacement, if_neg notFirst, step, nodeAtVisibleRequired, found]
        simp only [byIdOrThrow, lookup, bind, Except.bind]
      · rw [List.getElem?_eq_getElem bound]
        exact congrArg some same.symm

end FugueTree

end ConfluenceEditor
