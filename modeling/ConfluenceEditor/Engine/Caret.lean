/-
Where a caret stands.

A caret is anchored to an identifier and resolved by climbing from that node to the root: every turn
adds what the row holds before the node, and from a right row also the parent's left row and the
parent itself. Each turn adds what precedes the node in the parent's subtree, so the sum is the
number of visible nodes at or before the anchor in the document (`caret_exact`), which is what a walk
over the whole document counts (`naiveResolveCaret`).
-/

import ConfluenceEditor.Engine.Calls
import Mathlib.Algebra.Ring.Int.Defs

namespace ConfluenceEditor

open SidedForest SidedForest.Forest

namespace FugueTree

/-! ### The climb -/

/-- One turn of the climb: the node it is at, the two rows of its parent, and whether the parent is
a visible node. The root is none. -/
structure Turn where
  cur : TreeNode
  leftChildren : Forest TreeNode
  rightChildren : Forest TreeNode
  parentShown : Bool

/-- The turns from the first node that satisfies `p` up to the parent of the row. -/
def turns (p : TreeNode → Bool) (leftChildren rightChildren : Forest TreeNode)
    (parentShown : Bool) : Forest TreeNode → Option (List Turn)
  | nil => none
  | cons a l r t =>
      if p a then some [⟨a, leftChildren, rightChildren, parentShown⟩]
      else match turns p l r (!a.deleted) l with
        | some below => some (below ++ [⟨a, leftChildren, rightChildren, parentShown⟩])
        | none => match turns p l r (!a.deleted) r with
          | some below => some (below ++ [⟨a, leftChildren, rightChildren, parentShown⟩])
          | none => turns p leftChildren rightChildren parentShown t

/-- The visible sizes of a row. -/
def sizes : Forest TreeNode → Int
  | nil => 0
  | cons child _ _ t => child.visibleSize + sizes t

/-- The visible sizes of a row up to a node of it. -/
def sizesBefore (cur : TreeNode) : Forest TreeNode → Int
  | nil => 0
  | cons sib _ _ t => if sib.id = cur.id then 0 else sib.visibleSize + sizesBefore cur t

def Turn.climb (count : Int) (turn : Turn) : Int :=
  match turn.cur.side with
  | .L => count + sizesBefore turn.cur turn.leftChildren
  | .R =>
      let count := count + sizes turn.leftChildren
      let count := if turn.parentShown then count + 1 else count
      count + sizesBefore turn.cur turn.rightChildren

/-- The turns from a node of the tree up to the root. -/
def turnsIn (t : FugueTree) (id : Identifier) : List Turn :=
  ((turns (·.id = id) t.leftChildren t.rightChildren false t.leftChildren).or
    (turns (·.id = id) t.leftChildren t.rightChildren false t.rightChildren)).getD []

def visibleIndexRightOf (t : FugueTree) : Option Identifier → Int
  | none => 0
  | some id =>
      match t.get? id with
      | none => 0
      | some (node, leftChildren, _) =>
          let count := sizes leftChildren
          let count := if node.deleted then count else count + 1
          (t.turnsIn id).foldl Turn.climb count

/-! ### What a turn adds -/

/-- What precedes the row of a turn in the parent's subtree. -/
def aheadOfRow (side : Side) (leftChildren : Forest TreeNode) (parentShown : Bool) : Int :=
  match side with
  | .L => 0
  | .R => sizes leftChildren + if parentShown then 1 else 0

def Turn.adds (turn : Turn) : Int :=
  aheadOfRow turn.cur.side turn.leftChildren turn.parentShown +
    sizesBefore turn.cur (turn.cur.side.pick turn.leftChildren turn.rightChildren)

theorem Turn.climb_eq (count : Int) (turn : Turn) : turn.climb count = count + turn.adds := by
  unfold Turn.climb Turn.adds aheadOfRow
  cases turn.cur.side with
  | L => simp only [Side.pick_L, Int.zero_add]
  | R =>
      simp only [Side.pick_R]
      split_ifs <;> omega

theorem foldl_climb (taken : List Turn) (count : Int) :
    taken.foldl Turn.climb count = count + (taken.map Turn.adds).sum := by
  induction taken generalizing count with
  | nil => simp
  | cons turn taken ih =>
      rw [List.foldl_cons, ih, Turn.climb_eq, List.map_cons, List.sum_cons, Int.add_assoc]

/-- The visible nodes of a list. -/
def shown (l : List TreeNode) : List TreeNode := l.filter fun a => !a.deleted

theorem shown_append (l l' : List TreeNode) : shown (l ++ l') = shown l ++ shown l' :=
  List.filter_append ..

theorem sizes_eq {F : Forest TreeNode}
    (sized : F.Sized TreeNode.visibleWeight TreeNode.visibleSize) :
    sizes F = (shown F.inorder).length := by
  induction F with
  | nil => rfl
  | cons a l r t _ _ iht =>
      obtain ⟨size, -, -, st⟩ := sized
      rw [total_visibleWeight, total_visibleWeight, TreeNode.visibleWeight] at size
      rw [sizes, size, iht st, show shown (cons a l r t).inorder = _ from visibleRow_cons a l r t,
        show shown t.inorder = visibleRow t from rfl]
      cases deleted : a.deleted <;> simp <;> omega

/-- Up to a node of the row, the climb adds what the traversal shows before it. -/
structure Climbed (taken : List Turn) (start : Int) (F : Forest TreeNode) (a : TreeNode)
    (l r : Forest TreeNode) : Prop where
  sized : l.Sized TreeNode.visibleWeight TreeNode.visibleSize
  split : ∃ before after, F.inorder = before ++ (l.inorder ++ a :: r.inorder) ++ after ∧
    (taken.map Turn.adds).sum = start + (shown before).length

/-- One turn more, from a row below that stands between `first` and `last`. -/
theorem Climbed.above {below : List Turn} {a : TreeNode} {l r F F' : Forest TreeNode}
    {ahead : Int} (climbed : Climbed below ahead F a l r) (turn : Turn)
    (first last : List TreeNode) (split : F'.inorder = first ++ F.inorder ++ last)
    (counted : ahead = (shown first).length) : Climbed (below ++ [turn]) turn.adds F' a l r := by
  obtain ⟨before, after, inner, sum⟩ := climbed.split
  refine ⟨climbed.sized, first ++ before, after ++ last, by simp [split, inner], ?_⟩
  rw [List.map_append, List.sum_append, sum, shown_append, List.length_append, counted]
  simp only [List.map_cons, List.map_nil, List.sum_cons, List.sum_nil]
  omega

theorem turns_spec {p : TreeNode → Bool} {parent : Option Identifier} {s : Side}
    {F : Forest TreeNode} (sized : F.Sized TreeNode.visibleWeight TreeNode.visibleSize)
    (distinct : F.Distinct TreeNode.id)
    (placed : F.Placed TreeNode.id TreeNode.parent TreeNode.side parent s)
    (leftChildren rightChildren : Forest TreeNode) (parentShown : Bool) (skipped : Int)
    (shift : ∀ x ∈ F.roots, sizesBefore x (s.pick leftChildren rightChildren) =
      skipped + sizesBefore x F) :
    (F.find? p = none → turns p leftChildren rightChildren parentShown F = none) ∧
    ∀ a l r, F.find? p = some (a, l, r) →
      ∃ taken, turns p leftChildren rightChildren parentShown F = some taken ∧
        Climbed taken (aheadOfRow s leftChildren parentShown + skipped) F a l r := by
  induction F generalizing parent s leftChildren rightChildren parentShown skipped with
  | nil => exact ⟨fun _ => rfl, fun a l r found => by cases found⟩
  | cons b l' r' t ihl ihr iht =>
      obtain ⟨size, sl, sr, st⟩ := sized
      obtain ⟨dl, dr, dt, -, -, bt, -, -, -⟩ := distinct.parts
      obtain ⟨-, side, pl, pr, pt⟩ := placed
      have own : b.visibleSize = (shown (l'.inorder ++ b :: r'.inorder)).length := by
        have whole := sizes_eq (F := cons b l' r' nil) ⟨size, sl, sr, trivial⟩
        rw [show sizes (cons b l' r' nil) = b.visibleSize + 0 from rfl] at whole
        simpa [inorder] using whole
      set turn : Turn := ⟨b, leftChildren, rightChildren, parentShown⟩ with hturn
      have added : aheadOfRow s leftChildren parentShown + skipped = turn.adds := by
        rw [Turn.adds, hturn, side, shift b List.mem_cons_self, sizesBefore, if_pos rfl,
          Int.add_zero]
      have left := ihl sl dl pl l' r' (!b.deleted) 0 fun x _ => by rw [Side.pick_L, Int.zero_add]
      have right := ihr sr dr pr l' r' (!b.deleted) 0 fun x _ => by rw [Side.pick_R, Int.zero_add]
      have tail := iht st dt pt leftChildren rightChildren parentShown (skipped + b.visibleSize)
        fun x root => by
          rw [shift x (List.mem_cons_of_mem _ root), sizesBefore,
            if_neg (bt x (mem_of_mem_roots root)).symm, Int.add_assoc]
      unfold find? turns
      simp only [← hturn]
      by_cases hit : p b = true
      · rw [if_pos hit, if_pos hit]
        refine ⟨by simp, fun a l r found => ?_⟩
        obtain ⟨rfl, rfl, rfl⟩ := by simpa using found
        refine ⟨_, rfl, sl, [], t.inorder, by simp [inorder], ?_⟩
        rw [added]
        simp [shown]
      rw [if_neg hit, if_neg hit, added]
      cases inl : l'.find? p with
      | some found =>
          refine ⟨by simp, fun a l r same => ?_⟩
          obtain ⟨taken, climbs, climbed⟩ := left.2 a l r (inl.trans same)
          rw [climbs]
          exact ⟨_, rfl, climbed.above turn [] (b :: (r'.inorder ++ t.inorder))
            (by simp [inorder]) rfl⟩
      | none =>
          rw [left.1 inl]
          cases inr : r'.find? p with
          | some found =>
              refine ⟨by simp, fun a l r same => ?_⟩
              obtain ⟨taken, climbs, climbed⟩ := right.2 a l r (inr.trans same)
              rw [climbs]
              refine ⟨_, rfl, climbed.above turn (l'.inorder ++ [b]) t.inorder (by simp [inorder])
                ?_⟩
              rw [aheadOfRow, sizes_eq sl, shown_append, List.length_append]
              cases deleted : b.deleted <;> simp [shown, deleted]
          | none =>
              rw [right.1 inr]
              refine ⟨fun none => tail.1 none, fun a l r same => ?_⟩
              obtain ⟨taken, climbs, climbed⟩ := tail.2 a l r same
              obtain ⟨before, after, split, sum⟩ := climbed.split
              refine ⟨taken, climbs, climbed.sized, (l'.inorder ++ b :: r'.inorder) ++ before, after,
                by simp [inorder, split], ?_⟩
              rw [sum, own, shown_append (l'.inorder ++ b :: r'.inorder), List.length_append,
                ← added]
              omega

variable {t : FugueTree}

/-- The caret of a node of the tree is what the document shows up to it. -/
theorem WF.visibleIndexRightOf_eq (wf : t.WF) {before after : List Node} {n : Node}
    (split : t.nodes = before ++ n :: after) :
    t.visibleIndexRightOf (some n.id) =
      ((before ++ [n]).filter fun m => !m.deleted).length := by
  have member : n ∈ t.nodes := by simp [split]
  obtain ⟨⟨a, l, r⟩, found, shownNode⟩ := Option.map_eq_some_iff.mp
    (wf.nodeByIdentifier_eq_some_iff.mpr ⟨member, rfl⟩)
  obtain rfl : a.toPublicNode = n := shownNode
  have present : t.hasIdentifier a.id = true := wf.hasIdentifier_iff.mpr ⟨_, member, rfl⟩
  have inside : findIn (·.id = a.id) t.leftChildren t.rightChildren = some (a, l, r) := by
    rwa [get?, TreeNode.toPublicNode_id, if_pos present] at found
  have rows : Rows TreeNode.id TreeNode.parent TreeNode.side
      (fun a b => a.toPublicNode.siblingLE b.toPublicNode) t.leftChildren t.rightChildren :=
    (Rows.map_iff TreeNode.toPublicNode).mp wf.rows
  have left := turns_spec (p := fun x => decide (x.id = a.id)) wf.visibleSized.1
    rows.distinctLeft rows.placedLeft t.leftChildren t.rightChildren false 0
    fun x _ => by rw [Side.pick_L, Int.zero_add]
  have right := turns_spec (p := fun x => decide (x.id = a.id)) wf.visibleSized.2
    rows.distinctRight rows.placedRight t.leftChildren t.rightChildren false 0
    fun x _ => by rw [Side.pick_R, Int.zero_add]
  -- the turns lead from the node to the root, past everything that stands before it
  have climbed : ∃ first last, t.leftChildren.inorder ++ t.rightChildren.inorder =
      first ++ (l.inorder ++ a :: r.inorder) ++ last ∧
      l.Sized TreeNode.visibleWeight TreeNode.visibleSize ∧
      ((t.turnsIn a.id).map Turn.adds).sum = (shown first).length := by
    cases inl : t.leftChildren.find? (fun x => decide (x.id = a.id)) with
    | some found' =>
        obtain rfl : found' = (a, l, r) := by simpa [findIn, inl] using inside
        obtain ⟨taken, climbs, sized, first, last, whole, sum⟩ := left.2 a l r inl
        refine ⟨first, last ++ t.rightChildren.inorder, by simp [whole], sized, ?_⟩
        rw [turnsIn, climbs, Option.some_or, Option.getD_some, sum]
        simp [aheadOfRow]
    | none =>
        have inr : t.rightChildren.find? (fun x => decide (x.id = a.id)) = some (a, l, r) := by
          simpa [findIn, inl] using inside
        obtain ⟨taken, climbs, sized, first, last, whole, sum⟩ := right.2 a l r inr
        refine ⟨t.leftChildren.inorder ++ first, last, by simp [whole], sized, ?_⟩
        rw [turnsIn, left.1 inl, climbs, Option.none_or, Option.getD_some, sum, shown_append,
          List.length_append, aheadOfRow, sizes_eq wf.visibleSized.1]
        simp
  obtain ⟨first, last, whole, sized, sum⟩ := climbed
  have list : t.nodes = (first ++ l.inorder).map TreeNode.toPublicNode ++
      a.toPublicNode :: (r.inorder ++ last).map TreeNode.toPublicNode := by
    rw [nodes, whole]
    simp
  obtain ⟨rfl, -⟩ := eq_of_split (split ▸ wf.nodup) (split.symm.trans list)
  have counted : ∀ L : List TreeNode,
      ((L.map TreeNode.toPublicNode).filter fun m => !m.deleted).length = (shown L).length := by
    intro L
    rw [List.filter_map, List.length_map]
    rfl
  rw [List.filter_append, List.length_append, counted, shown_append, List.length_append]
  unfold visibleIndexRightOf
  simp only [TreeNode.toPublicNode_id] at found ⊢
  simp only [found, foldl_climb, sum, sizes_eq sized]
  cases deleted : a.deleted <;> simp [deleted] <;> omega

end FugueTree

namespace Engine

/-! ### The engine's caret -/

def resolveCaret (e : Engine) (id : Option Identifier) : Int := e.tree.visibleIndexRightOf id

/-- The anchor of a visible index: the visible node on its left. -/
def resolvePresenceAnchor (engine : Engine) (visibleIndex : Int) : Option Identifier :=
  if visibleIndex ≤ 0 then none else (engine.visible[(visibleIndex - 1).toNat]?).map Node.id

/-- The visible nodes at or before a node of the document, counted one by one. -/
def naiveResolveCaret (engine : Engine) : Option Identifier → Nat
  | none => 0
  | some id =>
      match engine.nodes.findIdx? (·.id = id) with
      | none => 0
      | some idx => ((engine.nodes.take (idx + 1)).filter fun n => !n.deleted).length

variable {e : Engine}

theorem Sound.resolveCaret_eq (sound : e.Sound) (id : Option Identifier) :
    e.resolveCaret id = e.naiveResolveCaret id := by
  have list : e.nodes = e.tree.nodes := sound.wf.toArray_eq
  cases id with
  | none => rfl
  | some id =>
      unfold naiveResolveCaret
      rw [list]
      cases found : e.tree.nodes.findIdx? (·.id = id) with
      | none =>
          have absent : e.tree.nodeByIdentifier id = none := by
            refine sound.wf.nodeByIdentifier_eq_none_iff.mpr fun n member => ?_
            simpa using List.findIdx?_eq_none_iff.mp found n member
          have missing : e.tree.get? id = none := Option.map_eq_none_iff.mp absent
          unfold resolveCaret FugueTree.visibleIndexRightOf
          simp only [missing, found]
          rfl
      | some idx =>
          obtain ⟨inside, here, -⟩ := List.findIdx?_eq_some_iff_getElem.mp found
          have split : e.tree.nodes = e.tree.nodes.take idx ++
              e.tree.nodes[idx] :: e.tree.nodes.drop (idx + 1) := by
            rw [List.getElem_cons_drop, List.take_append_drop]
          have named : e.tree.nodes[idx].id = id := of_decide_eq_true here
          have caret := sound.wf.visibleIndexRightOf_eq split
          rw [named, List.take_append_getElem] at caret
          simp only [found]
          exact caret

/-- The anchor that is picked for a visible index resolves to that index. -/
theorem Sound.resolveCaret_anchor (sound : e.Sound) (i : Nat) (inside : i ≤ e.visible.length) :
    e.resolveCaret (e.resolvePresenceAnchor i) = i := by
  cases i with
  | zero => rfl
  | succ k =>
      have here : k < e.visible.length := inside
      have anchor : e.resolvePresenceAnchor ((k + 1 : Nat) : Int) = some e.visible[k].id := by
        rw [resolvePresenceAnchor, if_neg (by omega)]
        have same : (((k + 1 : Nat) : Int) - 1).toNat = k := by omega
        rw [same, List.getElem?_eq_getElem here, Option.map_some]
      rw [anchor]
      set n := e.visible[k] with hn
      obtain ⟨member, live⟩ := List.mem_filter.mp (List.getElem_mem here)
      obtain ⟨before, after, split⟩ := List.append_of_mem member
      rw [← hn] at split live
      have list : e.nodes = e.tree.nodes := sound.wf.toArray_eq
      have index : (e.nodes.filter fun m => !m.deleted)[k]? = some n :=
        List.getElem?_eq_getElem here
      have distinct : e.nodes.Nodup := list ▸ sound.wf.nodup.of_map
      rw [split] at index distinct
      have caret := sound.wf.visibleIndexRightOf_eq (list ▸ split)
      have one : ([n].filter fun m => !m.deleted) = [n] := List.filter_eq_self.mpr (by simpa using live)
      rw [List.filter_append, one, List.length_append,
        FugueTree.length_filter_before distinct index] at caret
      exact caret

/-- In every reachable engine the climb counts the visible nodes at or before the anchor, none for
an unknown one, and the anchor of a visible index leads back to it. -/
theorem caret_exact (reachable : e.Reachable) :
    (∀ id, e.resolveCaret id = e.naiveResolveCaret id) ∧
      ∀ i : Nat, i ≤ e.visible.length → e.resolveCaret (e.resolvePresenceAnchor i) = i :=
  ⟨reachable.sound.resolveCaret_eq, reachable.sound.resolveCaret_anchor⟩

/-- Three characters of which the second one was deleted, and one typed in its place. -/
def retyped : List Call :=
  [.edit (.insert 0 97 false), .edit (.insert 1 98 false), .edit (.insert 2 99 false),
    .edit (.delete 1 1), .edit (.insert 1 120 false)]

theorem caret_exact_retyped : ∃ e, Run.run call (new 1) retyped = .ok e ∧
    e.resolveCaret (some ⟨2, 1⟩) = 2 ∧ e.resolveCaret (some ⟨3, 1⟩) = 3 ∧
    e.resolveCaret (e.resolvePresenceAnchor 2) = 2 := by
  obtain ⟨e, ran, checked⟩ := Run.exists_of_ends (Run.run call (new 1) retyped)
    (fun e => decide (e.naiveResolveCaret (some ⟨2, 1⟩) = 2) &&
      decide (e.naiveResolveCaret (some ⟨3, 1⟩) = 3) && decide (2 ≤ e.visible.length)) (by decide)
  simp only [Bool.and_eq_true, decide_eq_true_eq] at checked
  obtain ⟨⟨tombstone, typed⟩, long⟩ := checked
  have exact := caret_exact (e := e) ⟨1, _, ran⟩
  refine ⟨e, ran, ?_, ?_, exact.2 2 long⟩
  · rw [exact.1, tombstone]
    rfl
  · rw [exact.1, typed]
    rfl

end Engine

end ConfluenceEditor
