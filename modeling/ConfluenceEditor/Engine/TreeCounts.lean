/-
The augmented counts of the tree, over runs of its operations.

A call of one of the four mutators leaves a tree behind whether it returns or throws (`FugueTree.call`).
As long as every node is attached under an identifier that is not in the index (`Fresh`), the tree stays
well formed, and `Augmented` says what that means for its readers: the stored sizes are the counts over
the subtrees, the index and the traversal have the same identifiers, the rows of children are sorted, and
the descent by visible sizes finds the visible node with the given index. `attach` itself does not look
for the identifier: a second node under it stands in the traversal as well (`attached_twice`).
-/

import ConfluenceEditor.Engine.Collect
import ConfluenceEditor.Engine.Placement
import ConfluenceEditor.Library.Run
import Mathlib.Algebra.Ring.Int.Defs

namespace ConfluenceEditor

open SidedForest SidedForest.Forest

inductive TreeCall where
  | attach (op : InsertOperation)
  | setDeleted (id : Identifier) (deleted : Bool) (deletedBy : Option Identifier)
  | remove (id : Identifier)
  | tryRemoveLeaf (id : Identifier)
  deriving DecidableEq, Repr

namespace FugueTree

/-- What the call returns or throws, and the tree that it leaves behind. -/
def call (t : FugueTree) : TreeCall → Except String (Option Node) × FugueTree
  | .attach op =>
      match t.attach op.id op.value op.bind op.parent op.side with
      | .ok t' => (.ok none, t')
      | .error message => (.error message, t)
  | .setDeleted id deleted deletedBy =>
      match t.setDeleted id deleted deletedBy with
      | .ok t' => (.ok none, t')
      | .error message => (.error message, t)
  | .remove id =>
      match t.remove id with
      | .ok (removed, t') => (.ok removed, t')
      | .error message => (.error message, t)
  | .tryRemoveLeaf id =>
      match t.tryRemoveLeaf id with
      | some t' => (.ok (t.nodeByIdentifier id), t')
      | none => (.ok none, t)

def step (t : FugueTree) (c : TreeCall) : Except String FugueTree := .ok (t.call c).2

/-- A node is attached under an identifier that is not in the index. -/
def Fresh (t : FugueTree) : TreeCall → Prop
  | .attach op => t.hasIdentifier op.id = false
  | _ => True

/-! ### What the counts promise -/

/-- A node with its subtree, in order. -/
def subtree (a : TreeNode) (l r : Forest TreeNode) : List TreeNode := l.inorder ++ a :: r.inorder

/-- A row of children, of the root or of a node. -/
def IsRow (t : FugueTree) (row : Forest TreeNode) : Prop :=
  row = t.leftChildren ∨ row = t.rightChildren ∨
    ∃ a l r, SubIn a l r t.leftChildren t.rightChildren ∧ (row = l ∨ row = r)

structure Augmented (t : FugueTree) : Prop where
  /-- The stored sizes are the counts over the subtree. -/
  sizes : ∀ a l r, SubIn a l r t.leftChildren t.rightChildren →
    a.totalSize = (subtree a l r).length ∧
      a.visibleSize = ((subtree a l r).filter fun n => !n.deleted).length
  root : t.totalSize = t.toArray.length ∧
    t.visibleSize = (t.toArray.filter fun n => !n.deleted).length
  /-- The traversal has the identifiers of the index, each of them once, and no others. -/
  index : ∀ id, (t.toArray.map Node.id).count id = if t.hasIdentifier id then 1 else 0
  sorted : ∀ row, t.IsRow row → row.roots.Pairwise fun a b => siblingLess b a = false
  /-- A visible index in range is that of a visible node. -/
  visible : ∀ i : Nat, (i : Int) < t.visibleSize → ∃ n,
    (t.toArray.filter fun n => !n.deleted)[i]? = some n ∧ t.nodeAtVisible i = .ok (some n)
  /-- The bookkeeping bug is not reached. -/
  returns : ∀ (i : Int) (message : String), t.nodeAtVisible i ≠ .error message

variable {t t' : FugueTree}

theorem sum_totalWeight (nodes : List TreeNode) :
    (nodes.map TreeNode.totalWeight).sum = nodes.length := by
  induction nodes with
  | nil => rfl
  | cons a nodes ih =>
      rw [List.map_cons, List.sum_cons, ih, List.length_cons, TreeNode.totalWeight]
      omega

theorem sum_visibleWeight (nodes : List TreeNode) :
    (nodes.map TreeNode.visibleWeight).sum = (nodes.filter fun n => !n.deleted).length := by
  induction nodes with
  | nil => rfl
  | cons a nodes ih =>
      rw [List.map_cons, List.sum_cons, ih, TreeNode.visibleWeight]
      by_cases deleted : a.deleted = true
      · rw [if_pos deleted, List.filter_cons_of_neg (by rw [deleted]; exact Bool.false_ne_true),
          Int.zero_add]
      · rw [if_neg deleted, List.filter_cons_of_pos (by rw [Bool.eq_false_iff.mpr deleted]; rfl),
          List.length_cons]
        omega

theorem WF.sizes (wf : t.WF) {a : TreeNode} {l r : Forest TreeNode}
    (sub : SubIn a l r t.leftChildren t.rightChildren) :
    a.totalSize = (subtree a l r).length ∧
      a.visibleSize = ((subtree a l r).filter fun n => !n.deleted).length := by
  rw [← sum_totalWeight, ← sum_visibleWeight]
  rcases sub with left | right
  · exact ⟨left.stored_eq wf.totalSized.1, left.stored_eq wf.visibleSized.1⟩
  · exact ⟨right.stored_eq wf.totalSized.2, right.stored_eq wf.visibleSized.2⟩

theorem WF.totalSize_eq (wf : t.WF) : t.totalSize = t.nodes.length := by
  rw [wf.totalRoot, total_eq_sum, total_eq_sum, sum_totalWeight, sum_totalWeight, nodes,
    List.length_map, List.length_append]
  exact (Int.natCast_add _ _).symm

theorem WF.count_eq (wf : t.WF) (id : Identifier) :
    (t.nodes.map Node.id).count id = if t.hasIdentifier id then 1 else 0 := by
  by_cases present : t.hasIdentifier id = true
  · have ⟨n, member, named⟩ := wf.hasIdentifier_iff.mp present
    rw [if_pos present]
    exact List.count_eq_one_of_mem wf.nodup (named ▸ List.mem_map_of_mem member)
  · rw [if_neg present]
    refine List.count_eq_zero_of_not_mem fun member => present ?_
    have ⟨n, inside, named⟩ := List.mem_map.mp member
    exact wf.hasIdentifier_iff.mpr ⟨n, inside, named⟩

theorem WF.sorted (wf : t.WF) {row : Forest TreeNode} (isRow : t.IsRow row) :
    row.roots.Pairwise fun a b => siblingLess b a = false := by
  have left := (ordered_map TreeNode.toPublicNode).mp wf.rows.orderedLeft
  have right := (ordered_map TreeNode.toPublicNode).mp wf.rows.orderedRight
  have below : ∀ a l r, SubIn a l r t.leftChildren t.rightChildren →
      l.Ordered (fun a b => a.toPublicNode.siblingLE b.toPublicNode) ∧
        r.Ordered (fun a b => a.toPublicNode.siblingLE b.toPublicNode) := fun a l r sub =>
    sub.elim (fun inside => inside.ordered left) fun inside => inside.ordered right
  rcases isRow with here | here | ⟨a, l, r, sub, here | here⟩
  · exact here ▸ left.roots_pairwise
  · exact here ▸ right.roots_pairwise
  · exact here ▸ (below a l r sub).1.roots_pairwise
  · exact here ▸ (below a l r sub).2.roots_pairwise

theorem WF.augmented (wf : t.WF) : t.Augmented where
  sizes a l r sub := wf.sizes sub
  root := by
    rw [wf.toArray_eq]
    exact ⟨wf.totalSize_eq, wf.visibleSize_eq⟩
  index id := by
    rw [wf.toArray_eq]
    exact wf.count_eq id
  sorted row isRow := wf.sorted isRow
  visible i inside := by
    rw [wf.visibleSize_eq] at inside
    have within : i < t.visible.length := Int.ofNat_lt.mp inside
    refine ⟨t.visible[i], ?_, ?_⟩
    · rw [wf.toArray_eq]
      exact List.getElem?_eq_getElem within
    · rw [wf.nodeAtVisible_eq, if_neg (Int.not_lt.mpr (Int.natCast_nonneg i)), Int.toNat_natCast,
        List.getElem?_eq_getElem within]
  returns i message threw := by
    rw [wf.nodeAtVisible_eq] at threw
    cases threw

/-! ### One call -/

theorem attach_absent {op : InsertOperation} {p : Identifier} (under : op.parent = some p)
    (absent : t.hasIdentifier p = false) : ∃ message,
      t.attach op.id op.value op.bind op.parent op.side = .error message := by
  have missing : ∀ here, t.rewrite p here 1 1 = none := by
    intro here
    rw [rewrite, if_neg (Bool.eq_false_iff.mp absent)]
  rw [under, attach]
  simp only [missing]
  exact ⟨_, rfl⟩

theorem WF.call (wf : t.WF) {c : TreeCall} (fresh : t.Fresh c) : (t.call c).2.WF := by
  cases c with
  | attach op =>
      have attaches : ∀ t', t.attach op.id op.value op.bind op.parent op.side = .ok t' → t'.WF := by
        intro t' attached
        by_cases ready : ∀ p, op.parent = some p → t.hasIdentifier p = true
        · have ⟨t₁, attached₁, wf₁, _⟩ := wf.attach_spec op ready fresh
          cases attached.symm.trans attached₁
          exact wf₁
        · have ⟨p, unready⟩ := not_forall.mp ready
          have ⟨under, absent⟩ := Classical.not_imp.mp unready
          have ⟨message, threw⟩ := attach_absent under (Bool.eq_false_iff.mpr absent)
          cases attached.symm.trans threw
      rw [FugueTree.call]
      cases attached : t.attach op.id op.value op.bind op.parent op.side with
      | ok t' => exact attaches t' attached
      | error message => exact wf
  | setDeleted id deleted deletedBy =>
      have sets : ∀ t', t.setDeleted id deleted deletedBy = .ok t' → t'.WF := by
        intro t' set
        by_cases present : t.hasIdentifier id = true
        · have ⟨t₁, set₁, wf₁, _⟩ := wf.setDeleted_spec deleted deletedBy present
          cases set.symm.trans set₁
          exact wf₁
        · have missing : t.get? id = none := if_neg present
          rw [FugueTree.setDeleted, missing] at set
          cases set
      rw [FugueTree.call]
      cases set : t.setDeleted id deleted deletedBy with
      | ok t' => exact sets t' set
      | error message => exact wf
  | remove id =>
      have removes : ∀ n t', t.remove id = .ok (n, t') → t'.WF := by
        intro n t' removed
        unfold FugueTree.remove at removed
        split at removed
        · cases removed
          exact wf
        · split at removed
          · rename_i unlinked
            cases removed
            exact (wf.tryRemoveLeaf unlinked).1
          · cases removed
      rw [FugueTree.call]
      cases removed : t.remove id with
      | ok result => exact removes result.1 result.2 removed
      | error message => exact wf
  | tryRemoveLeaf id =>
      rw [FugueTree.call]
      cases removed : t.tryRemoveLeaf id with
      | some t' => exact (wf.tryRemoveLeaf removed).1
      | none => exact wf

/-- A leaf that is not removed stays where it is. -/
theorem tryRemoveLeaf_failed {id : Identifier} (failed : (t.call (.tryRemoveLeaf id)).1 = .ok none) :
    (t.call (.tryRemoveLeaf id)).2 = t := by
  rw [call] at failed ⊢
  cases removed : t.tryRemoveLeaf id with
  | none => rfl
  | some t' =>
      have ⟨node, _, _, found, _⟩ := tryRemoveLeaf_cases removed
      rw [removed] at failed
      have returned : t.nodeByIdentifier id = none := Except.ok.inj failed
      rw [nodeByIdentifier, found] at returned
      cases returned

/-! ### Runs -/

/-- In every run whose attached nodes have identifiers that are not in the index, the tree is augmented in
every state; and a call of `tryRemoveLeaf` that fails leaves the tree as it is. -/
theorem tree_stays_augmented {calls : List TreeCall} (fresh : Run.Each step Fresh empty calls) :
    Run.Always step Augmented empty calls ∧
      ∀ (t : FugueTree) (id : Identifier), (t.call (.tryRemoveLeaf id)).1 = .ok none →
        (t.call (.tryRemoveLeaf id)).2 = t := by
  refine ⟨?_, fun t id failed => tryRemoveLeaf_failed failed⟩
  have always : Run.Always step WF empty calls :=
    Run.always_of_each (fun t c t' wf met moved => Except.ok.inj moved ▸ wf.call met) wf_empty fresh
  exact always.imp fun t wf => wf.augmented

/-- A node with a child, both on the right, the first of them deleted. -/
def twoDeep : List TreeCall :=
  [.attach ⟨⟨1, 1⟩, 97, none, .R, false⟩, .attach ⟨⟨2, 1⟩, 98, some ⟨1, 1⟩, .R, false⟩,
    .setDeleted ⟨1, 1⟩ true (some ⟨3, 1⟩), .tryRemoveLeaf ⟨1, 1⟩]

theorem tree_stays_augmented_twoDeep : Run.Always step Augmented empty twoDeep :=
  (tree_stays_augmented (by
    intro t₁ moved₁
    cases moved₁
    refine ⟨rfl, fun t₂ moved₂ => ?_⟩
    cases moved₂
    refine ⟨?_, fun t₃ moved₃ => ⟨trivial, fun t₄ moved₄ => ⟨trivial, trivial⟩⟩⟩
    show FugueTree.hasIdentifier _ _ = false
    decide +kernel)).1

/-- A second node under the same identifier: the identifier is in the traversal twice. -/
theorem attached_twice : ¬ Run.Always step Augmented empty
    [.attach ⟨⟨1, 1⟩, 97, none, .R, false⟩, .attach ⟨⟨1, 1⟩, 98, none, .R, false⟩] := by
  intro always
  have augmented : Augmented _ := (always.2 _ rfl).2 _ rfl
  have once := augmented.index ⟨1, 1⟩
  exact absurd once (by decide +kernel)

end FugueTree

end ConfluenceEditor
