/-
The Fugue tree behind the engine's document.

The definitions follow the source's tree class: the root sentinel's two rows of children, the index
of identifiers, the stored subtree sizes, `attach`, `setDeleted`, `nodeAtVisible`,
`decidePlacement` and `toArray`. A node names its parent by identifier; `none` is the root. The
loops that walk parent pointers (`updateSize`) become the path rewriting of `updateAt`, and the
iterative tree walks become recursions on the forest.
-/

import ConfluenceEditor.Engine.Operation
import ConfluenceEditor.Library.Sized

namespace ConfluenceEditor

open SidedForest SidedForest.Forest

structure TreeNode where
  id : Identifier
  value : Nat
  bind : Bool
  deleted : Bool
  deletedBy : Option Identifier
  parent : Option Identifier
  side : Side
  visibleSize : Int
  totalSize : Int
  deriving DecidableEq, Repr

/-- A combining mark sorts nearer its base than an ordinary character; then by replica id. -/
def siblingRank (bind : Bool) (id : Identifier) : Nat × Nat := (if bind then 0 else 1, id.r)

/-- The comparison of two ranks. -/
def rankLess (ra rb : Nat × Nat) : Bool :=
  if ra.1 ≠ rb.1 then ra.1 < rb.1 else ra.2 < rb.2

def siblingLess (a b : TreeNode) : Bool :=
  rankLess (siblingRank a.bind a.id) (siblingRank b.bind b.id)

/-- The root sentinel's rows and sizes, and the keys of the index of identifiers. -/
structure FugueTree where
  leftChildren : Forest TreeNode
  rightChildren : Forest TreeNode
  visibleSize : Int
  totalSize : Int
  byId : List Identifier
  deriving DecidableEq, Repr

namespace TreeNode

def toPublicNode (t : TreeNode) : Node :=
  ⟨t.id, t.value, t.parent, t.side, t.bind, t.deleted, t.deletedBy⟩

/-- The change of one node of the path in `updateSize`. -/
def updateSize (deltaTotal deltaVisible : Int) (t : TreeNode) : TreeNode :=
  { t with totalSize := t.totalSize + deltaTotal, visibleSize := t.visibleSize + deltaVisible }

end TreeNode

namespace FugueTree

def empty : FugueTree := ⟨nil, nil, 0, 0, []⟩

def hasIdentifier (t : FugueTree) (id : Identifier) : Bool := decide (id ∈ t.byId)

/-- The index lookup, which finds the node with its two rows of children. -/
def get? (t : FugueTree) (id : Identifier) : Option (TreeNode × Forest TreeNode × Forest TreeNode) :=
  if t.hasIdentifier id then findIn (·.id = id) t.leftChildren t.rightChildren else none

def nodeByIdentifier (t : FugueTree) (id : Identifier) : Option Node :=
  (t.get? id).map fun found => found.1.toPublicNode

/-- Rewrite the node `id` by `here` and add the two deltas to its sizes and to those of all its
ancestors, the root included (`updateSize`). -/
def rewrite (t : FugueTree) (id : Identifier)
    (here : TreeNode → Forest TreeNode → Forest TreeNode →
      TreeNode × Forest TreeNode × Forest TreeNode)
    (deltaTotal deltaVisible : Int) : Option FugueTree :=
  if t.hasIdentifier id then
    (updateIn (·.id = id) (fun a l r => here (a.updateSize deltaTotal deltaVisible) l r)
      (TreeNode.updateSize deltaTotal deltaVisible) t.leftChildren t.rightChildren).map fun rows =>
        { t with
          leftChildren := rows.1
          rightChildren := rows.2
          totalSize := t.totalSize + deltaTotal
          visibleSize := t.visibleSize + deltaVisible }
  else none

/-- Attach a new node among the children of `parentId` (`none` is the root) on the given side. -/
def attach (t : FugueTree) (id : Identifier) (value : Nat) (bind : Bool)
    (parentId : Option Identifier) (side : Side) : Except String FugueTree :=
  let node : TreeNode :=
    TreeNode.updateSize 1 1 ⟨id, value, bind, false, none, parentId, side, 0, 0⟩
  match parentId with
  | none =>
      let rows := insertIn siblingLess side node t.leftChildren t.rightChildren
      .ok
        { leftChildren := rows.1
          rightChildren := rows.2
          visibleSize := t.visibleSize + 1
          totalSize := t.totalSize + 1
          byId := id :: t.byId }
  | some parent =>
      match t.rewrite parent (withChild siblingLess side node) 1 1 with
      | none =>
          .error ("FugueTree.attach(): parent " ++ serializeId parent ++ " is not present")
      | some t' => .ok { t' with byId := id :: t.byId }

/-- Set the tombstone fields of a node; the visible sizes change only when the flag flips. -/
def setDeleted (t : FugueTree) (id : Identifier) (deleted : Bool)
    (deletedBy : Option Identifier) : Except String FugueTree :=
  match t.get? id with
  | none => .error ("FugueTree.setDeleted(): " ++ serializeId id ++ " is not present")
  | some (node, _, _) =>
      let delta : Int := if node.deleted = deleted then 0 else if deleted then -1 else 1
      match t.rewrite id (fun a l r => ({ a with deleted, deletedBy }, l, r)) 0 delta with
      | none => .error ("FugueTree.setDeleted(): " ++ serializeId id ++ " is not present")
      | some t' => .ok t'

/-! ### The visible index -/

/-- How the walk through one row ends: at a node, past the row, or in a subtree whose stored size
promised more than it holds. -/
inductive Walk where
  | found (node : TreeNode)
  | past (remaining : Int)
  | bug

/-- The walk that ran off the end of a node's last row. -/
def Walk.exhausted : Walk → Walk
  | .past _ => .bug
  | w => w

/-- Skip the children whose visible size is used up and descend into the next one. -/
def walk : Forest TreeNode → Int → Walk
  | nil, remaining => .past remaining
  | cons child l r t, remaining =>
      if remaining < child.visibleSize then
        match walk l remaining with
        | .past remaining =>
            if child.deleted then (walk r remaining).exhausted
            else if remaining = 0 then .found child
            else (walk r (remaining - 1)).exhausted
        | w => w
      else walk t (remaining - child.visibleSize)

/-- The node at a visible index, `none` outside the range. -/
def nodeAtVisible (t : FugueTree) (visibleIndex : Int) : Except String (Option Node) :=
  if visibleIndex < 0 ∨ visibleIndex ≥ t.visibleSize then .ok none
  else
    -- the root itself is never counted, so its right row continues where the left one stopped
    let rows := match walk t.leftChildren visibleIndex with
      | .past remaining => (walk t.rightChildren remaining).exhausted
      | w => w
    match rows with
    | .found node => .ok (some node.toPublicNode)
    | _ => .error
        "FugueTree.nodeAtVisible(): index in range but not found — internal bookkeeping bug"

def nodeAtVisibleRequired (t : FugueTree) (visibleIndex : Int) : Except String Node := do
  match ← t.nodeAtVisible visibleIndex with
  | some n => .ok n
  | none => .error ("FugueTree: visible index " ++ toString visibleIndex ++ " out of range")

def byIdOrThrow (t : FugueTree) (id : Identifier) :
    Except String (TreeNode × Forest TreeNode × Forest TreeNode) :=
  match t.get? id with
  | some found => .ok found
  | none => .error ("FugueTree: " ++ serializeId id ++ " is not present")

def leftmostDescendant (node : TreeNode) (left : Forest TreeNode) : TreeNode := leftmost node left

/-- Right child of the left origin when it has none yet, else left child of the leftmost node of
its first right child. -/
def placeAfter (leftOrigin : Option Identifier) (rightChildren : Forest TreeNode) :
    Option Identifier × Side :=
  match rightChildren with
  | nil => (leftOrigin, .R)
  | cons child left _ _ => (some (leftmostDescendant child left).id, .L)

/-- The parent and side of an insertion at a visible index. -/
def decidePlacement (t : FugueTree) (visibleIndex : Int) :
    Except String (Option Identifier × Side) :=
  if visibleIndex = 0 then .ok (placeAfter none t.rightChildren)
  else do
    let node ← t.nodeAtVisibleRequired (visibleIndex - 1)
    let (leftOrigin, _, right) ← t.byIdOrThrow node.id
    .ok (placeAfter (some leftOrigin.id) right)

/-! ### The whole document -/

/-- The in-order traversal of a row, which skips an empty subtree. -/
def rowToArray : Forest TreeNode → List Node
  | nil => []
  | cons child l r t =>
      if child.totalSize > 0 then
        rowToArray l ++ child.toPublicNode :: (rowToArray r ++ rowToArray t)
      else rowToArray t

def toArray (t : FugueTree) : List Node := rowToArray t.leftChildren ++ rowToArray t.rightChildren

end FugueTree

end ConfluenceEditor
