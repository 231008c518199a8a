/-
Garbage collection.

`collect` takes out the tombstones that are causally stable, past the undo horizon and not needed as
a parent by a node that stays. The loops of the source are the sweep that drops anchored candidates
(`sweepAnchored`), cut short by a time budget, and the passes that unlink leaves (`removeLoop`).
`Sound.collect_spec` says that the method never throws and that it prunes the tree: the nodes that go
are deleted, and everything below them goes with them.
-/

import ConfluenceEditor.Engine.Moves
import ConfluenceEditor.Library.Prune

namespace ConfluenceEditor

open SidedForest SidedForest.Forest

namespace FugueTree

/-- Unlink a node; throws when it still has children. -/
def remove (t : FugueTree) (id : Identifier) : Except String (Option Node × FugueTree) :=
  match t.get? id with
  | none => .ok (none, t)
  | some (node, _, _) =>
      match t.tryRemoveLeaf id with
      | some t' => .ok (some node.toPublicNode, t')
      | none => .error ("FugueTree.remove(): " ++ serializeId id ++ " still has children — " ++
          "caller must guarantee no surviving node's parent reference would dangle")

variable {t t' : FugueTree}

/-- The tree without the nodes that are not kept. -/
structure Pruned (keep : Node → Bool) (t t' : FugueTree) : Prop where
  left : t'.leftChildren.map TreeNode.toPublicNode =
    (t.leftChildren.map TreeNode.toPublicNode).prune keep
  right : t'.rightChildren.map TreeNode.toPublicNode =
    (t.rightChildren.map TreeNode.toPublicNode).prune keep

theorem Pruned.congr {keep keep' : Node → Bool} (pruned : Pruned keep t t')
    (same : ∀ n ∈ t.nodes, keep n = keep' n) : Pruned keep' t t' where
  left := by
    rw [pruned.left]
    refine prune_congr fun n member => same n ?_
    rw [← inorder_public]
    exact List.mem_append_left _ member
  right := by
    rw [pruned.right]
    refine prune_congr fun n member => same n ?_
    rw [← inorder_public]
    exact List.mem_append_right _ member

theorem Pruned.trans {t'' : FugueTree} {keep keep' : Node → Bool} (first : Pruned keep t t')
    (second : Pruned keep' t' t'') : Pruned (fun n => keep n && keep' n) t t'' where
  left := by rw [second.left, first.left, prune_prune]
  right := by rw [second.right, first.right, prune_prune]

theorem pruned_self (t : FugueTree) {keep : Node → Bool} (all : ∀ n ∈ t.nodes, keep n = true) :
    Pruned keep t t :=
  Pruned.congr ⟨(prune_true _).symm, (prune_true _).symm⟩ fun n member => (all n member).symm

/-- Where the children of a dropped node are dropped, the node list is filtered. -/
theorem Pruned.nodes {keep : Node → Bool} (pruned : Pruned keep t t') (wf : t.WF)
    (closed : ∀ m n, n ∈ t.nodes → keep m = false → n.parent = some m.id → keep n = false) :
    t'.nodes = t.nodes.filter keep := by
  have closedBelow : Rows.ClosedBelow Node.id Node.parent keep
      (t.leftChildren.map TreeNode.toPublicNode) (t.rightChildren.map TreeNode.toPublicNode) :=
    fun m n member => closed m n (inorder_public t ▸ member)
  rw [← inorder_public t', pruned.left, pruned.right, wf.rows.inorder_prune closedBelow,
    inorder_public]

theorem WF.tryRemoveLeaf_pruned (wf : t.WF) {id : Identifier}
    (removed : t.tryRemoveLeaf id = some t') : Pruned (fun n => n.id ≠ id) t t' := by
  obtain ⟨n, -, leaf, detached⟩ := wf.tryRemoveLeaf_public removed
  obtain ⟨left, right⟩ := wf.rows.prune_detachIn leaf detached
  exact ⟨left, right⟩

/-- A node that nobody names as its parent is unlinked. -/
theorem WF.remove_leaf (wf : t.WF) {n : Node} (member : n ∈ t.nodes)
    (leaf : ∀ m ∈ t.nodes, m.parent ≠ some n.id) :
    ∃ t', t.remove n.id = .ok (some n, t') ∧ t.tryRemoveLeaf n.id = some t' := by
  obtain ⟨⟨a, l, r⟩, found, shown⟩ := Option.map_eq_some_iff.mp
    (wf.nodeByIdentifier_eq_some_iff.mpr ⟨member, rfl⟩)
  obtain ⟨named, sub⟩ := get?_sub found
  have empty : ∀ (s : Side) (G : Forest TreeNode),
      (s.pick (l.map TreeNode.toPublicNode) (r.map TreeNode.toPublicNode)).roots =
        (G.map TreeNode.toPublicNode).roots → G = nil := by
    intro s G same
    cases G with
    | nil => rfl
    | cons b bl br bt =>
        have root := (wf.rows.children_of_sub (sub.map TreeNode.toPublicNode) s
          b.toPublicNode).mpr (same ▸ List.mem_cons_self)
        rw [inorder_public, TreeNode.toPublicNode_id, named] at root
        exact absurd root.2.1 (leaf b.toPublicNode root.1)
  obtain rfl := empty .L l rfl
  obtain rfl := empty .R r rfl
  have present : t.hasIdentifier n.id = true := wf.hasIdentifier_iff.mpr ⟨n, member, rfl⟩
  have inside : findIn (·.id = n.id) t.leftChildren t.rightChildren = some (a, nil, nil) := by
    rwa [get?, if_pos present] at found
  have unlinked : ∃ rows, detachIn (·.id = n.id)
      (TreeNode.updateSize (-1) (if a.deleted then 0 else -1)) t.leftChildren t.rightChildren =
        some rows := detachIn_isSome inside
  obtain ⟨rows, detached⟩ := unlinked
  have removed : ∃ t', t.tryRemoveLeaf n.id = some t' := by
    unfold FugueTree.tryRemoveLeaf
    simp only [found, detached, Option.map_some]
    exact ⟨_, rfl⟩
  obtain ⟨t', removed⟩ := removed
  have same : a.toPublicNode = n := shown
  exact ⟨t', by simp only [remove, found, removed, same], removed⟩

/-- Among the nodes with a property one has no child with it. -/
theorem WF.exists_lowest (wf : t.WF) {S : Node → Prop} (nonempty : ∃ n ∈ t.nodes, S n) :
    ∃ n ∈ t.nodes, S n ∧ ∀ m ∈ t.nodes, m.parent = some n.id → ¬ S m := by
  have split : (∃ n ∈ (t.leftChildren.map TreeNode.toPublicNode).inorder, S n) ∨
      ∃ n ∈ (t.rightChildren.map TreeNode.toPublicNode).inorder, S n := by
    obtain ⟨n, member, holds⟩ := nonempty
    rw [← inorder_public] at member
    exact (List.mem_append.mp member).imp (fun inl => ⟨n, inl, holds⟩) fun inr => ⟨n, inr, holds⟩
  have lowest : ∃ n l r, SubIn n l r (t.leftChildren.map TreeNode.toPublicNode)
      (t.rightChildren.map TreeNode.toPublicNode) ∧ S n ∧
        ∀ m, m ∈ l.inorder ∨ m ∈ r.inorder → ¬ S m := by
    rcases split with inl | inr
    · obtain ⟨n, l, r, sub, rest⟩ := Forest.exists_lowest inl
      exact ⟨n, l, r, Or.inl sub, rest⟩
    · obtain ⟨n, l, r, sub, rest⟩ := Forest.exists_lowest inr
      exact ⟨n, l, r, Or.inr sub, rest⟩
  obtain ⟨n, l, r, sub, holds, below⟩ := lowest
  refine ⟨n, inorder_public t ▸ sub.mem, holds, fun m member under => below m ?_⟩
  have root := (wf.rows.children_of_sub sub m.side m).mp
    ⟨inorder_public t ▸ member, under, rfl⟩
  cases side : m.side with
  | L => exact Or.inl (mem_of_mem_roots (by simpa [side] using root))
  | R => exact Or.inr (mem_of_mem_roots (by simpa [side] using root))

end FugueTree

/-- The tunables of a collection. A budget has an effect only together with a clock, whose readings
are given in order. -/
structure CollectOptions where
  nowMs : Int
  maxAgeMs : Int
  maxOpsPerReplica : Int
  budgetMs : Option Int := none
  clock : Option (Nat → Int) := none

structure CollectResult where
  collectedCount : Nat
  incomplete : Bool
  deriving DecidableEq, Repr

/-- The budget is used up after this round of the sweep; the first reading was taken before it. -/
def CollectOptions.exhausted (options : CollectOptions) (round : Nat) : Bool :=
  match options.budgetMs, options.clock with
  | some budgetMs, some clock => decide (clock (round + 1) - clock 0 ≥ budgetMs)
  | _, _ => false

namespace Engine

/-- Deleted, causally stable and past the undo horizon. -/
def isCandidate (e : Engine) (frontier : Int) (options : CollectOptions) (node : Node) : Bool :=
  match node.deleted, node.deletedBy with
  | true, some deletedBy =>
      match e.deleteContext deletedBy with
      | none => false
      | some context =>
          if (context.seq : Int) > frontier then false
          else
            let agedOut := decide (options.nowMs - context.atMs ≥ options.maxAgeMs)
            let seenCounter := (e.maxCounterByReplica deletedBy.r).getD deletedBy.c
            let outpaced := decide ((seenCounter : Int) - deletedBy.c ≥ options.maxOpsPerReplica)
            agedOut || outpaced
  | _, _ => false

/-- The parents of the nodes that are not collected. -/
def anchored (allNodes : List Node) (collectible : List Identifier) : List Identifier :=
  (allNodes.filter fun n => n.id ∉ collectible).filterMap Node.parent

/-- Drop anchored candidates until a round drops none, and whether the budget ended the sweep in a
round that still dropped some. -/
def sweepAnchored (allNodes : List Node) (exhausted : Nat → Bool) :
    Nat → Nat → List Identifier → List Identifier × Bool
  | 0, _, collectible => (collectible, false)
  | rounds + 1, round, collectible =>
      let protectedKeys := anchored allNodes collectible
      let kept := collectible.filter (· ∉ protectedKeys)
      let changed := collectible.any (· ∈ protectedKeys)
      if exhausted round then (kept, changed)
      else if changed then sweepAnchored allNodes exhausted rounds (round + 1) kept
      else (kept, false)

/-- One pass over the keys that remained: whoever has no remaining child is unlinked. -/
def removePass (allNodes : List Node) : List Identifier → Engine → List Identifier → Bool →
    Except String (Engine × List Identifier × Bool)
  | [], e, remaining, removedThisPass => .ok (e, remaining, removedThisPass)
  | key :: keys, e, remaining, removedThisPass =>
      match e.tree.nodeByIdentifier key with
      | none => removePass allNodes keys e (remaining.filter (· ≠ key)) removedThisPass
      | some node =>
          if allNodes.any fun n => n.parent = some key && n.id ∈ remaining then
            removePass allNodes keys e remaining removedThisPass
          else do
            let (removedNode, tree) ← e.tree.remove node.id
            let deleteContext := match removedNode.bind Node.deletedBy with
              | some deletedBy => Function.update e.deleteContext deletedBy none
              | none => e.deleteContext
            removePass allNodes keys { e with tree, deleteContext }
              (remaining.filter (· ≠ key)) true

/-- Passes until nothing remains or a pass unlinked nothing. -/
def removeLoop (allNodes : List Node) : Nat → Engine → List Identifier → Except String Engine
  | 0, e, _ => .ok e
  | passes + 1, e, remaining =>
      if remaining = [] then .ok e
      else do
        let (e, remaining, removedThisPass) ← removePass allNodes remaining e remaining false
        if removedThisPass then removeLoop allNodes passes e remaining else .ok e

def collect (e : Engine) (frontier : Int) (options : CollectOptions) :
    Except String (CollectResult × Engine) :=
  let allNodes := e.nodes
  let candidates := (allNodes.filter (e.isCandidate frontier options)).map Node.id
  if candidates = [] then .ok (⟨0, false⟩, e)
  else
    let (collectible, incomplete) :=
      sweepAnchored allNodes options.exhausted (candidates.length + 1) 0 candidates
    if incomplete then .ok (⟨0, true⟩, e)
    else if collectible = [] then .ok (⟨0, false⟩, e)
    else do
      let e ← removeLoop allNodes (collectible.length + 1) e collectible
      .ok (⟨collectible.length, false⟩, e)

/-! ### The sweep -/

theorem mem_anchored {allNodes : List Node} {collectible : List Identifier} {id : Identifier} :
    id ∈ anchored allNodes collectible ↔
      ∃ n ∈ allNodes, n.id ∉ collectible ∧ n.parent = some id := by
  simp only [anchored, List.mem_filterMap, List.mem_filter, decide_eq_true_eq]
  exact ⟨fun ⟨n, ⟨member, outside⟩, under⟩ => ⟨n, member, outside, under⟩,
    fun ⟨n, member, outside, under⟩ => ⟨n, ⟨member, outside⟩, under⟩⟩

/-- Every child of a collectible node is collectible. -/
def ClosedBelow (allNodes : List Node) (collectible : List Identifier) : Prop :=
  ∀ n ∈ allNodes, ∀ p, n.parent = some p → p ∈ collectible → n.id ∈ collectible

theorem closedBelow_iff {allNodes : List Node} {collectible : List Identifier} :
    ClosedBelow allNodes collectible ↔
      ∀ id ∈ collectible, id ∉ anchored allNodes collectible := by
  constructor
  · intro closed id member protectedKey
    obtain ⟨n, inside, outside, under⟩ := mem_anchored.mp protectedKey
    exact outside (closed n inside id under member)
  · intro free n inside p under member
    by_contra outside
    exact free p member (mem_anchored.mpr ⟨n, inside, outside, under⟩)

/-- A sweep that was not cut short ends with a set that is closed. -/
theorem sweepAnchored_spec (allNodes : List Node) (exhausted : Nat → Bool) (rounds : Nat) :
    ∀ (round : Nat) (collectible : List Identifier), collectible.length < rounds →
      (sweepAnchored allNodes exhausted rounds round collectible).1.Sublist collectible ∧
      ((sweepAnchored allNodes exhausted rounds round collectible).2 = false →
        ClosedBelow allNodes
          (sweepAnchored allNodes exhausted rounds round collectible).1) := by
  induction rounds with
  | zero => exact fun round collectible short => absurd short (Nat.not_lt_zero _)
  | succ rounds ih =>
      intro round collectible short
      set protectedKeys := anchored allNodes collectible with hprotected
      set kept := collectible.filter (· ∉ protectedKeys) with hkept
      have sub : kept.Sublist collectible := List.filter_sublist
      -- when nothing was dropped, the set is the one it started from
      have stable : collectible.any (· ∈ protectedKeys) = false → ClosedBelow allNodes kept := by
        intro unchanged
        have free : ∀ id ∈ collectible, id ∉ protectedKeys := by
          simpa using unchanged
        have same : kept = collectible := List.filter_eq_self.mpr (by simpa using free)
        rw [same]
        exact closedBelow_iff.mpr free
      unfold sweepAnchored
      simp only [← hprotected, ← hkept]
      split_ifs with stop changed
      · exact ⟨sub, stable⟩
      · have shorter : kept.length < collectible.length := by
          obtain ⟨id, member, dropped⟩ := List.any_eq_true.mp changed
          refine List.length_filter_lt_length_iff_exists.mpr ⟨id, member, by simpa using dropped⟩
        obtain ⟨sub', closed⟩ := ih (round + 1) kept (by omega)
        exact ⟨sub'.trans sub, closed⟩
      · exact ⟨sub, fun _ => stable (by simpa using changed)⟩

/-- A closed part of the candidates survives every round. -/
theorem sweepAnchored_keeps {allNodes : List Node} {exhausted : Nat → Bool}
    {S : Identifier → Prop}
    (closed : ∀ n ∈ allNodes, ∀ p, n.parent = some p → S p → S n.id) (rounds : Nat) :
    ∀ (round : Nat) (collectible : List Identifier), (∀ id, S id → id ∈ collectible) →
      ∀ id, S id → id ∈ (sweepAnchored allNodes exhausted rounds round collectible).1 := by
  induction rounds with
  | zero => exact fun _ _ inside => inside
  | succ rounds ih =>
      intro round collectible inside
      -- whoever anchors a member is outside, and a child of a member is a member
      have kept : ∀ id, S id → id ∈ collectible.filter (· ∉ anchored allNodes collectible) := by
        intro id member
        refine List.mem_filter.mpr ⟨inside id member, decide_eq_true fun protectedKey => ?_⟩
        obtain ⟨n, there, outside, under⟩ := mem_anchored.mp protectedKey
        exact outside (inside n.id (closed n there id under member))
      unfold sweepAnchored
      simp only
      split_ifs
      · exact kept
      · exact ih (round + 1) _ kept
      · exact kept

/-- Only the budget ends a sweep early. -/
theorem sweepAnchored_unbounded {allNodes : List Node} {exhausted : Nat → Bool}
    (unbounded : ∀ round, exhausted round = false) (rounds : Nat) :
    ∀ (round : Nat) (collectible : List Identifier),
      (sweepAnchored allNodes exhausted rounds round collectible).2 = false := by
  induction rounds with
  | zero => exact fun _ _ => rfl
  | succ rounds ih =>
      intro round collectible
      unfold sweepAnchored
      simp only [unbounded, Bool.false_eq_true, if_false]
      split_ifs
      · exact ih (round + 1) _
      · rfl

/-! ### The removal -/

/-- A collection takes the nodes `gone` out of the tree and nothing else but contexts. -/
structure Collected (e e' : Engine) (gone : List Identifier) : Prop where
  moves : Moves e e'
  frame : ∃ tree deleteContext, e' = { e with tree, deleteContext }
  pruned : FugueTree.Pruned (fun n => n.id ∉ gone) e.tree e'.tree
  closed : ClosedBelow e.tree.nodes gone

/-- In the middle of the removal: what does not remain is gone. -/
structure Removing (e e' : Engine) (collectible remaining : List Identifier) : Prop where
  collected : Collected e e' (collectible.filter (· ∉ remaining))
  inside : ∀ id ∈ remaining, id ∈ collectible
  present : ∀ id ∈ collectible, ∃ n ∈ e.tree.nodes, n.id = id
  closed : ClosedBelow e.tree.nodes collectible

variable {e e' : Engine} {collectible remaining gone : List Identifier}

theorem Collected.nodes (collected : Collected e e' gone) (sound : e.Sound) :
    e'.tree.nodes = e.tree.nodes.filter fun n => n.id ∉ gone := by
  refine collected.pruned.nodes sound.wf fun m n member dropped under => ?_
  simp only [decide_not, Bool.not_eq_false', decide_eq_true_eq] at dropped ⊢
  exact collected.closed n member m.id under dropped

namespace Removing

theorem mem_nodes (removing : Removing e e' collectible remaining) (sound : e.Sound) {n : Node} :
    n ∈ e'.tree.nodes ↔ n ∈ e.tree.nodes ∧ (n.id ∈ collectible → n.id ∈ remaining) := by
  rw [removing.collected.nodes sound, List.mem_filter]
  simp only [List.mem_filter, decide_eq_true_eq, not_and, not_not]

/-- Unlinking a key without remaining children. -/
theorem step (removing : Removing e e' collectible remaining) (sound : e.Sound) {key : Identifier}
    {node : Node} (found : e'.tree.nodeByIdentifier key = some node) (member : key ∈ remaining)
    (leaf : ∀ n ∈ e.tree.nodes, n.parent = some key → n.id ∉ remaining) :
    ∃ removedNode tree, e'.tree.remove node.id = .ok (removedNode, tree) ∧
      ∀ deleteContext, Removing e { e' with tree, deleteContext } collectible
        (remaining.filter (· ≠ key)) := by
  have sound' : e'.Sound := sound.moves removing.collected.moves
  obtain ⟨inside, rfl⟩ := sound'.wf.nodeByIdentifier_eq_some_iff.mp found
  have childless : ∀ m ∈ e'.tree.nodes, m.parent ≠ some node.id := by
    intro m there under
    obtain ⟨old, kept⟩ := (removing.mem_nodes sound).mp there
    exact leaf m old under (kept (removing.closed m old node.id under (removing.inside _ member)))
  obtain ⟨tree, removed, unlinked⟩ := sound'.wf.remove_leaf inside childless
  refine ⟨some node, tree, removed, fun deleteContext => ?_⟩
  have pruned := removing.collected.pruned.trans (sound'.wf.tryRemoveLeaf_pruned unlinked)
  obtain ⟨tree₀, contexts, frame⟩ := removing.collected.frame
  refine ⟨⟨?_, ⟨tree, deleteContext, by rw [frame]⟩, ?_, ?_⟩, fun id there => ?_, removing.present,
    removing.closed⟩
  · exact removing.collected.moves.tail
      ⟨.remove node.id unlinked, rfl, le_refl _, fun _ known => Or.inl known⟩
  · refine pruned.congr fun n _ => ?_
    by_cases same : n.id = node.id
    · simp [same, member, removing.inside _ member]
    · simp [same]
  · intro n there p under gone
    simp only [List.mem_filter, decide_not, Bool.not_eq_true', decide_eq_false_iff_not, not_and,
      not_not, decide_eq_true_eq] at gone ⊢
    refine ⟨removing.closed n there p under gone.1, fun remains => ?_⟩
    by_contra other
    by_cases same : p = node.id
    · exact leaf n there (same ▸ under) remains
    · have before : p ∈ collectible.filter (· ∉ remaining) := by
        simp only [List.mem_filter, decide_eq_true_eq]
        exact ⟨gone.1, fun there => same (gone.2 there)⟩
      have child := removing.collected.closed n there p under before
      simp only [List.mem_filter, decide_eq_true_eq] at child
      exact child.2 remains
  · exact removing.inside id (List.mem_filter.mp there).1

end Removing

/-- A key that no remaining node names as its parent. -/
def Free (e : Engine) (remaining : List Identifier) (key : Identifier) : Prop :=
  ∀ n ∈ e.tree.nodes, n.parent = some key → n.id ∉ remaining

/-- What a pass does: it unlinks remaining keys, reports whether it did, and gets every key that is
free when the pass starts. -/
structure Passed (e e' : Engine) (collectible keys remaining remaining' : List Identifier)
    (flag flag' : Bool) : Prop where
  removing : Removing e e' collectible remaining'
  sub : remaining'.Sublist remaining
  kept : flag = true → flag' = true
  reported : remaining'.length < remaining.length → flag' = true
  shrunk : flag' = true → flag = true ∨ remaining'.length < remaining.length
  gets : ∀ key ∈ keys, key ∈ remaining → Free e remaining key → key ∉ remaining'

theorem Removing.removePass_spec (sound : e.Sound) (keys : List Identifier)
    (known : ∀ key ∈ keys, key ∈ collectible) : ∀ {e' : Engine} {remaining : List Identifier} (flag : Bool),
    Removing e e' collectible remaining → ∃ e'' remaining' flag',
      removePass e.tree.nodes keys e' remaining flag = .ok (e'', remaining', flag') ∧
        Passed e e'' collectible keys remaining remaining' flag flag' := by
  induction keys with
  | nil =>
      intro e' remaining flag removing
      exact ⟨e', remaining, flag, rfl, removing, List.Sublist.refl _, id,
        fun less => absurd less (lt_irrefl _), Or.inl, by simp⟩
  | cons key keys ih =>
      intro e' remaining flag removing
      have sound' : e'.Sound := sound.moves removing.collected.moves
      have later : ∀ key ∈ keys, key ∈ collectible := fun key member =>
        known key (List.mem_cons_of_mem _ member)
      unfold removePass
      split
      · rename_i absent
        -- a key without a node is no longer remaining
        have outside : key ∉ remaining := fun member => by
          obtain ⟨n, there, rfl⟩ := removing.present key (removing.inside key member)
          exact sound'.wf.nodeByIdentifier_eq_none_iff.mp absent n
            ((removing.mem_nodes sound).mpr ⟨there, fun _ => member⟩) rfl
        have same : remaining.filter (· ≠ key) = remaining :=
          List.filter_eq_self.mpr fun id member => by
            simpa using fun equal : id = key => outside (equal ▸ member)
        rw [same]
        obtain ⟨e'', remaining', flag', ran, passed⟩ := ih later flag removing
        refine ⟨e'', remaining', flag', ran, passed.removing, passed.sub, passed.kept,
          passed.reported, passed.shrunk, fun id member there free => ?_⟩
        rcases List.mem_cons.mp member with rfl | later
        · exact absurd there outside
        · exact passed.gets id later there free
      · rename_i node found
        split_ifs with anchors
        · obtain ⟨e'', remaining', flag', ran, passed⟩ := ih later flag removing
          refine ⟨e'', remaining', flag', ran, passed.removing, passed.sub, passed.kept,
            passed.reported, passed.shrunk, fun id member there free => ?_⟩
          rcases List.mem_cons.mp member with rfl | later
          · obtain ⟨n, inside, child⟩ := List.any_eq_true.mp anchors
            simp only [Bool.and_eq_true, decide_eq_true_eq] at child
            exact absurd child.2 (free n inside child.1)
          · exact passed.gets id later there free
        · have leaf : Free e remaining key := fun n inside under there => by
            refine anchors (List.any_eq_true.mpr ⟨n, inside, ?_⟩)
            simp [under, there]
          by_cases member : key ∈ remaining
          · obtain ⟨removedNode, tree, removed, next⟩ := removing.step sound found member leaf
            have shorter : (remaining.filter (· ≠ key)).length < remaining.length :=
              List.length_filter_lt_length_iff_exists.mpr ⟨key, member, by simp⟩
            obtain ⟨e'', remaining', flag', ran, passed⟩ := ih later true (next _)
            have less : remaining'.length < remaining.length :=
              lt_of_le_of_lt passed.sub.length_le shorter
            refine ⟨e'', remaining', flag', ?_, passed.removing,
              passed.sub.trans List.filter_sublist, fun _ => passed.kept rfl,
              fun _ => passed.kept rfl, fun _ => Or.inr less, fun id inside there free there' => ?_⟩
            · rw [removed]
              exact ran
            · have kept := passed.sub.subset there'
              rcases List.mem_cons.mp inside with rfl | later
              · simp at kept
              · refine passed.gets id later kept (fun n old under inside => ?_) there'
                exact free n old under (List.mem_filter.mp inside).1
          · -- a key that does not remain is not in the tree
            obtain ⟨there, rfl⟩ := sound'.wf.nodeByIdentifier_eq_some_iff.mp found
            exact absurd (((removing.mem_nodes sound).mp there).2 (known _ List.mem_cons_self))
              member

/-- Passes unlink everything that is collectible: while something remains, something is free. -/
theorem Removing.removeLoop_spec (sound : e.Sound) (passes : Nat) :
    ∀ {e' : Engine} {remaining : List Identifier}, Removing e e' collectible remaining →
      remaining.length < passes → ∃ e'', removeLoop e.tree.nodes passes e' remaining = .ok e'' ∧
        Removing e e'' collectible [] := by
  induction passes with
  | zero => exact fun _ short => absurd short (Nat.not_lt_zero _)
  | succ passes ih =>
      intro e' remaining removing short
      unfold removeLoop
      by_cases empty : remaining = []
      · exact ⟨e', if_pos empty, empty ▸ removing⟩
      · obtain ⟨e₁, remaining₁, flag, ran, passed⟩ :=
          removing.removePass_spec sound remaining removing.inside false
        have some : ∃ n ∈ e.tree.nodes, n.id ∈ remaining := by
          obtain ⟨key, member⟩ := List.exists_mem_of_ne_nil _ empty
          obtain ⟨n, inside, rfl⟩ := removing.present key (removing.inside key member)
          exact ⟨n, inside, member⟩
        obtain ⟨n, -, member, below⟩ := sound.wf.exists_lowest some
        have less : remaining₁.length < remaining.length := by
          refine lt_of_le_of_ne passed.sub.length_le fun same => ?_
          have equal := passed.sub.eq_of_length same
          exact passed.gets n.id member member below (equal ▸ member)
        obtain ⟨e₂, looped, done⟩ := ih passed.removing (by omega)
        refine ⟨e₂, ?_, done⟩
        rw [if_neg empty, ran]
        simp only [bind, Except.bind, passed.reported less, if_true]
        exact looped

/-! ### The whole collection -/

theorem collected_nil (e : Engine) : Collected e e [] where
  moves := .refl
  frame := ⟨e.tree, e.deleteContext, rfl⟩
  pruned := FugueTree.pruned_self _ fun n _ => by simp
  closed n _ p _ member := by cases member

/-- What a collection that returned `result` did, with the identifiers it took out. -/
structure CollectedBy (e e' : Engine) (frontier : Int) (options : CollectOptions)
    (result : CollectResult) (gone : List Identifier) : Prop where
  collected : Collected e e' gone
  candidates : ∀ id ∈ gone, ∃ n ∈ e.tree.nodes, n.id = id ∧ e.isCandidate frontier options n = true
  nodup : gone.Nodup
  count : result.collectedCount = gone.length
  /-- A sweep that was cut short collects nothing. -/
  incomplete : result.incomplete = true → e' = e ∧ gone = []
  complete : (∀ round, options.exhausted round = false) → result.incomplete = false
  /-- Otherwise every closed set of candidates is taken out. -/
  greatest : result.incomplete = false → ∀ S : Identifier → Prop,
    (∀ id, S id → ∃ n ∈ e.tree.nodes, n.id = id ∧ e.isCandidate frontier options n = true) →
    (∀ n ∈ e.tree.nodes, ∀ p, n.parent = some p → S p → S n.id) → ∀ id, S id → id ∈ gone

theorem Sound.collect_by (sound : e.Sound) (frontier : Int) (options : CollectOptions) :
    ∃ result e' gone, e.collect frontier options = .ok (result, e') ∧
      CollectedBy e e' frontier options result gone := by
  have list : e.nodes = e.tree.nodes := sound.wf.toArray_eq
  set candidates := (e.tree.nodes.filter (e.isCandidate frontier options)).map Node.id
    with hcandidates
  have candidate : ∀ id, id ∈ candidates ↔ ∃ n ∈ e.tree.nodes, n.id = id ∧
      e.isCandidate frontier options n = true := by
    intro id
    rw [hcandidates, List.mem_map]
    simp only [List.mem_filter]
    exact ⟨fun ⟨n, ⟨inside, holds⟩, same⟩ => ⟨n, inside, same, holds⟩,
      fun ⟨n, inside, same, holds⟩ => ⟨n, ⟨inside, holds⟩, same⟩⟩
  have distinct : candidates.Nodup := sound.wf.nodup.sublist (List.filter_sublist.map Node.id)
  set swept := sweepAnchored e.tree.nodes options.exhausted (candidates.length + 1) 0 candidates
    with hswept
  obtain ⟨sub, closed⟩ := sweepAnchored_spec e.tree.nodes options.exhausted
    (candidates.length + 1) 0 candidates (Nat.lt_succ_self _)
  have keeps : ∀ S : Identifier → Prop,
      (∀ id, S id → ∃ n ∈ e.tree.nodes, n.id = id ∧ e.isCandidate frontier options n = true) →
      (∀ n ∈ e.tree.nodes, ∀ p, n.parent = some p → S p → S n.id) → ∀ id, S id → id ∈ swept.1 :=
    fun S eligible below => sweepAnchored_keeps below _ 0 candidates fun id member =>
      (candidate id).mpr (eligible id member)
  rw [← hswept] at sub closed
  unfold collect
  simp only [list, ← hcandidates, ← hswept]
  split_ifs with none incomplete nothing
  · refine ⟨⟨0, false⟩, e, [], rfl, collected_nil e, by simp, List.nodup_nil, rfl, nofun,
      fun _ => rfl, fun _ S eligible below id member => ?_⟩
    have there := (candidate id).mpr (eligible id member)
    rwa [none] at there
  · refine ⟨⟨0, true⟩, e, [], rfl, collected_nil e, by simp, List.nodup_nil, rfl,
      fun _ => ⟨rfl, rfl⟩, fun unbounded => ?_, nofun⟩
    rw [hswept, sweepAnchored_unbounded unbounded] at incomplete
    cases incomplete
  · refine ⟨⟨0, false⟩, e, [], rfl, collected_nil e, by simp, List.nodup_nil, rfl, nofun,
      fun _ => rfl, fun _ S eligible below id member => ?_⟩
    have there := keeps S eligible below id member
    rwa [nothing] at there
  · have complete := closed (by simpa using incomplete)
    have start : Removing e e swept.1 swept.1 := by
      have gone : swept.1.filter (· ∉ swept.1) = [] := by simp
      refine ⟨?_, fun id member => member, fun id member => ?_, complete⟩
      · rw [gone]
        exact collected_nil e
      · obtain ⟨n, inside, named, -⟩ := (candidate id).mp (sub.subset member)
        exact ⟨n, inside, named⟩
    obtain ⟨e', looped, done⟩ := start.removeLoop_spec sound (swept.1.length + 1)
      (Nat.lt_succ_self _)
    have all : swept.1.filter (· ∉ ([] : List Identifier)) = swept.1 := by simp
    have collected := done.collected
    rw [all] at collected
    refine ⟨⟨swept.1.length, false⟩, e', swept.1, ?_, collected,
      fun id member => (candidate id).mp (sub.subset member), distinct.sublist sub, rfl, nofun,
      fun _ => rfl, fun _ => keeps⟩
    rw [looped]
    rfl

/-- A collection never throws; it prunes tombstones together with everything below them, and counts
them. A sweep that was cut short collects nothing. -/
theorem Sound.collect_spec (sound : e.Sound) (frontier : Int) (options : CollectOptions) :
    ∃ result e' gone, e.collect frontier options = .ok (result, e') ∧ Collected e e' gone ∧
      (∀ id ∈ gone, ∃ n ∈ e.tree.nodes, n.id = id ∧ e.isCandidate frontier options n = true) ∧
      result.collectedCount = gone.length ∧ (result.incomplete = true → gone = []) := by
  obtain ⟨result, e', gone, ran, swept⟩ := sound.collect_by frontier options
  exact ⟨result, e', gone, ran, swept.collected, swept.candidates, swept.count,
    fun stopped => (swept.incomplete stopped).2⟩

theorem deleted_of_isCandidate {frontier : Int} {options : CollectOptions} {n : Node}
    (candidate : e.isCandidate frontier options n = true) : n.deleted = true := by
  unfold isCandidate at candidate
  split at candidate
  · assumption
  · cases candidate

end Engine

end ConfluenceEditor
