/-
Taking several rejected inserts out again, one after the other.

Each of them is taken out only if it is a leaf in its turn, so the order matters: a node goes exactly
when every branch below it was tried from the bottom up (`Sound.revertAll_spec`). A set that is
closed under children and tried in such an order goes as a whole (`bottomUp_of_listed`).
-/

import ConfluenceEditor.Engine.Collect

namespace ConfluenceEditor

open SidedForest SidedForest.Forest

namespace Engine

variable {e e' e'' : Engine} {nodes : List Node} {tried : List Identifier} {n : Node}

/-- A path from `n` down the tree, as the identifiers on it from the bottom up. -/
inductive Branch (nodes : List Node) : Node → List Identifier → Prop
  | self (n : Node) : Branch nodes n [n.id]
  | down {n m : Node} {ids : List Identifier} (member : m ∈ nodes) (under : m.parent = some n.id)
      (rest : Branch nodes m ids) : Branch nodes n (ids ++ [n.id])

/-- Every branch below the node was tried from the bottom up, the node itself last. -/
def BottomUp (nodes : List Node) (tried : List Identifier) (n : Node) : Prop :=
  ∀ ids, Branch nodes n ids → ids.Sublist tried

theorem not_bottomUp_nil (nodes : List Node) (n : Node) : ¬ BottomUp nodes [] n := by
  intro bottomUp
  have empty := bottomUp [n.id] (.self n)
  cases List.sublist_nil.mp empty

theorem sublist_concat_iff {α : Type} {l l' : List α} {a b : α} :
    (l ++ [a]).Sublist (l' ++ [b]) ↔ (l ++ [a]).Sublist l' ∨ a = b ∧ l.Sublist l' := by
  have whole : (l ++ [a]).Sublist l' ↔ (a :: l.reverse).Sublist l'.reverse := by
    rw [← List.reverse_sublist, List.reverse_concat]
  rw [← List.reverse_sublist, List.reverse_concat, List.reverse_concat, List.cons_sublist_cons',
    whole, List.reverse_sublist]

/-- What one more try adds: its own node, if everything below it went before. -/
theorem bottomUp_concat {id : Identifier} : BottomUp nodes (tried ++ [id]) n ↔
    BottomUp nodes tried n ∨
      n.id = id ∧ ∀ m ∈ nodes, m.parent = some n.id → BottomUp nodes tried m := by
  constructor
  · intro bottomUp
    by_cases own : n.id = id
    · refine Or.inr ⟨own, fun m member under ids branch => ?_⟩
      have whole := bottomUp (ids ++ [n.id]) (.down member under branch)
      rcases sublist_concat_iff.mp whole with before | ⟨-, below⟩
      · exact (List.sublist_append_left ids [n.id]).trans before
      · exact below
    · refine Or.inl fun ids branch => ?_
      have split : ∃ first, ids = first ++ [n.id] := by
        cases branch with
        | self => exact ⟨[], rfl⟩
        | down _ _ rest => exact ⟨_, rfl⟩
      obtain ⟨first, rfl⟩ := split
      exact (sublist_concat_iff.mp (bottomUp _ branch)).resolve_right fun last => own last.1
  · rintro (before | ⟨own, below⟩) ids branch
    · exact (before ids branch).trans (List.sublist_append_left tried [id])
    · cases branch with
      | self =>
          rw [own]
          exact List.sublist_append_right tried [id]
      | down member under rest =>
          rw [own]
          exact (below _ member under _ rest).append_right [id]

/-! ### One try -/

/-- Some nodes went, and the others are as they were, in the same order. -/
structure Reverted (e e' : Engine) (gone : Node → Prop) : Prop where
  order : e'.tree.nodes.Sublist e.tree.nodes
  mem : ∀ n, n ∈ e'.tree.nodes ↔ n ∈ e.tree.nodes ∧ ¬ gone n

/-- A try takes the node out exactly when nobody names it as the parent. -/
theorem Sound.reverted_tryRevert (sound : e.Sound) (id : Identifier) :
    Reverted e (e.tryRevertLocalInsert id).2
      fun n => n.id = id ∧ ∀ m ∈ e.tree.nodes, m.parent ≠ some id := by
  unfold Engine.tryRevertLocalInsert
  cases removed : e.tree.tryRemoveLeaf id with
  | some tree =>
      obtain ⟨-, before, x, after, named, old, new⟩ := sound.wf.tryRemoveLeaf removed
      have leaf : ∀ m ∈ e.tree.nodes, m.parent ≠ some id := by
        intro m member under
        obtain ⟨node, left, right, found, same, -⟩ := FugueTree.tryRemoveLeaf_cases removed
        have child := (sound.wf.public_children (FugueTree.get?_sub found).2 m.side m).mp
          ⟨member, same.symm ▸ under, rfl⟩
        cases side : m.side <;> simp [side] at child
      refine ⟨?_, fun n => ?_⟩
      · rw [old, new]
        exact (List.Sublist.refl before).append (List.sublist_cons_self x after)
      · have distinct := sound.wf.nodup
        rw [old, List.map_append, List.map_cons, List.nodup_middle] at distinct
        have other : ∀ m ∈ before ++ after, m.id ≠ x.id := by
          intro m member same
          refine (List.nodup_cons.mp distinct).1 ?_
          rw [← List.map_append, ← same]
          exact List.mem_map_of_mem member
        show n ∈ tree.nodes ↔ _
        rw [new]
        constructor
        · intro member
          refine ⟨?_, fun gone => other n member (gone.1.trans named.symm)⟩
          rw [old]
          simp only [List.mem_append, List.mem_cons] at member ⊢
          tauto
        · rintro ⟨member, kept⟩
          rw [old] at member
          simp only [List.mem_append, List.mem_cons] at member ⊢
          have apart : n ≠ x := fun same => kept ⟨same ▸ named, leaf⟩
          tauto
  | none =>
      refine ⟨List.Sublist.refl _, fun n => ⟨fun member => ⟨member, ?_⟩, And.left⟩⟩
      rintro ⟨rfl, leaf⟩
      obtain ⟨tree, -, unlinked⟩ := sound.wf.remove_leaf member leaf
      rw [removed] at unlinked
      cases unlinked

/-! ### All of them -/

/-- The inserts are tried in this order. -/
def revertAll (e : Engine) (tried : List Identifier) : Engine :=
  tried.foldl (fun e id => (e.tryRevertLocalInsert id).2) e

theorem Sound.revertAll_spec (sound : e.Sound) (tried : List Identifier) :
    (e.revertAll tried).Sound ∧
      Reverted e (e.revertAll tried) (BottomUp e.tree.nodes tried) := by
  induction tried using List.reverseRecOn with
  | nil =>
      exact ⟨sound, List.Sublist.refl _, fun n =>
        ⟨fun member => ⟨member, not_bottomUp_nil _ n⟩, And.left⟩⟩
  | append_singleton tried id ih =>
      obtain ⟨sound', reverted⟩ := ih
      rw [revertAll, List.foldl_concat]
      have last := sound'.reverted_tryRevert id
      refine ⟨sound'.tryRevertLocalInsert id, last.order.trans reverted.order, fun n => ?_⟩
      refine (last.mem n).trans ?_
      rw [reverted.mem n, and_assoc]
      refine and_congr_right fun member => ?_
      rw [bottomUp_concat, not_or]
      refine and_congr_right fun _ => not_congr (and_congr_right fun own => ?_)
      -- the children that remain are those that had not gone
      constructor
      · intro leaf m inside under
        by_contra stays
        exact leaf m ((reverted.mem m).mpr ⟨inside, stays⟩) (own ▸ under)
      · intro below m there under
        obtain ⟨inside, stays⟩ := (reverted.mem m).mp there
        exact stays (below m inside (own.symm ▸ under))

/-! ### A closed set that is listed bottom up -/

/-- No node is its own parent. -/
theorem parent_ne {t : FugueTree} (wf : t.WF) (member : n ∈ t.nodes) : n.parent ≠ some n.id := by
  intro own
  obtain ⟨m, inside, loops, lowest⟩ := wf.exists_lowest (S := fun m => m.parent = some m.id)
    ⟨n, member, own⟩
  exact lowest m inside loops loops

/-- Nobody is tried after its parent, and the children of what is tried are tried: then everything
below a node was tried from the bottom up. -/
theorem bottomUp_of_listed {t : FugueTree} (wf : t.WF)
    (closed : ∀ m ∈ t.nodes, ∀ p ∈ tried, m.parent = some p → m.id ∈ tried)
    (listed : tried.Pairwise fun a b => ∀ m ∈ t.nodes, m.id = b → m.parent ≠ some a)
    (inside : n.id ∈ tried) : BottomUp t.nodes tried n := by
  -- a branch is found before any place where its top is tried
  have found : ∀ ids, Branch t.nodes n ids → ∀ first last, tried = first ++ n.id :: last →
      ids.Sublist (first ++ [n.id]) := by
    intro ids branch
    induction branch with
    | self n => exact fun first last _ => List.sublist_append_right first [n.id]
    | @down n m ids there under rest ih =>
        intro first last split
        have below := closed m there n.id (by simp [split]) under
        rw [split] at below listed
        have early : m.id ∈ first := by
          rcases List.mem_append.mp below with before | here
          · exact before
          · rcases List.mem_cons.mp here with same | after
            · exact absurd (same ▸ under) (parent_ne wf there)
            · have late := (List.pairwise_append.mp listed).2.1
              exact absurd under ((List.pairwise_cons.mp late).1 m.id after m there rfl)
        obtain ⟨first', last', rfl⟩ := List.append_of_mem early
        have split' : tried = first' ++ m.id :: (last' ++ n.id :: last) := by
          rw [split, List.append_assoc, List.cons_append]
        refine ((ih (closed m there n.id (by simp [split]) under) first' _ split').trans ?_).append_right
          [n.id]
        rw [List.append_cons first' m.id last']
        exact List.sublist_append_left (first' ++ [m.id]) last'
  obtain ⟨first, last, split⟩ := List.append_of_mem inside
  intro ids branch
  refine (found ids branch first last split).trans ?_
  rw [split, List.append_cons first n.id last]
  exact List.sublist_append_left (first ++ [n.id]) last

end Engine

end ConfluenceEditor
