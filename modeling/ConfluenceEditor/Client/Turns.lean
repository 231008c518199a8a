/-
The turns of a replay.

`reconcileOfflineQueue` takes the queued operations one at a time. Every turn ends in one of three
ways: an insert is minted again with its scalar, a delete is minted again for what its target has
become, or nothing is minted, because the target of a delete is deleted already or because the
operation is an undelete (`replay_outcome`). No turn throws on a reachable engine (`turns_spec`).
-/

import ConfluenceEditor.Client.Resident
import ConfluenceEditor.Client.SentEdits

namespace ConfluenceEditor

open Engine

namespace Reconciliation

/-- The node that a queued delete is about is deleted already, or gone. -/
def Gone (s : Reconciliation) (op : DeleteOperation) : Prop :=
  ∀ n ∈ s.engine.tree.nodes, n.id = s.resolve op.target → n.deleted = true

/-- The same scalar is inserted, or what the target has become is deleted. -/
def SameEdit (s : Reconciliation) : Operation → Operation → Prop
  | .insert op, .insert newOp => newOp.value = op.value ∧ newOp.bind = op.bind
  | .delete op, .delete newOp => newOp.target = s.resolve op.target
  | _, _ => False

/-- The replay of `op` sends the same edit as `newOp`. -/
structure MintsAgain (s : Reconciliation) (op newOp : Operation) : Prop where
  same : s.SameEdit op newOp
  replayed : ∃ s', s.replay op = .ok s' ∧ s'.resent = s.resent ++ [newOp]

/-- Each queued operation, with the loop's variables when its turn comes. -/
def turns : Reconciliation → List Operation → List (Reconciliation × Operation)
  | _, [] => []
  | s, op :: ops => (s, op) :: match s.replay op with
      | .ok s' => s'.turns ops
      | .error _ => []

end Reconciliation

/-! ### The indices are inside the document -/

section Inside

variable {e : Engine}

theorem countVisible_le {before after : List Node} (split : e.tree.nodes = before ++ after) :
    countVisible before ≤ e.tree.visible.length := by
  rw [FugueTree.visible, split, List.filter_append, List.length_append]
  exact Nat.le_add_right ..

theorem countVisible_take_le (sound : e.Sound) (k : Nat) :
    countVisible (e.nodes.take k) ≤ e.tree.visible.length := by
  have list : e.nodes = e.tree.nodes := sound.wf.toArray_eq
  have split : e.tree.nodes = e.nodes.take k ++ e.nodes.drop k := by
    rw [List.take_append_drop, list]
  exact countVisible_le split

theorem Reconciliation.insertIndex_le {s : Reconciliation} (sound : s.engine.Sound)
    (op : InsertOperation) : s.insertIndex op ≤ s.engine.tree.visible.length := by
  unfold insertIndex
  split
  · exact Nat.zero_le _
  · split
    · simp only [visibleIndexAfter]
      split
      · exact Nat.zero_le _
      · exact countVisible_take_le sound _
    · rw [visibleIndexBefore]
      split
      · exact Nat.zero_le _
      · exact countVisible_take_le sound _

/-- A target without an index is deleted already, or gone. -/
theorem deleted_of_visibleIndexOfTarget (sound : e.Sound) {target : Identifier}
    (missing : visibleIndexOfTarget e target = none) :
    ∀ n ∈ e.tree.nodes, n.id = target → n.deleted = true := by
  rintro n member rfl
  have list : e.nodes = e.tree.nodes := sound.wf.toArray_eq
  obtain ⟨before, after, split⟩ := List.append_of_mem member
  rw [visibleIndexOfTarget_eq (list.trans split) (list ▸ sound.wf.nodup)] at missing
  by_contra shown
  rw [if_neg shown] at missing
  cases missing

/-- The index of a target is the index of its node. -/
theorem visible_of_visibleIndexOfTarget (sound : e.Sound) {target : Identifier} {k : Nat}
    (found : visibleIndexOfTarget e target = some k) :
    ∃ n, e.tree.visible[k]? = some n ∧ n.id = target := by
  have list : e.nodes = e.tree.nodes := sound.wf.toArray_eq
  by_cases here : ∃ n ∈ e.tree.nodes, n.id = target
  · obtain ⟨n, member, rfl⟩ := here
    obtain ⟨before, after, split⟩ := List.append_of_mem member
    rw [visibleIndexOfTarget_eq (list.trans split) (list ▸ sound.wf.nodup)] at found
    split_ifs at found with shown
    obtain rfl := Option.some.inj found
    exact ⟨n, visible_countVisible split (Bool.eq_false_iff.mpr shown), rfl⟩
  · -- no node has this identifier, so there is no index
    have missing : structuralIndexOf e target = none := by
      rw [structuralIndexOf, List.findIdx?_eq_none_iff]
      intro n member
      rw [list] at member
      rw [Bool.eq_false_iff, ne_eq, Bool.and_eq_true, decide_eq_true_iff, decide_eq_true_iff]
      exact fun same => here ⟨n, member, Identifier.ext_iff'.mpr same⟩
    rw [visibleIndexOfTarget, missing] at found
    cases found

end Inside

/-! ### One turn -/

namespace Reconciliation

variable {s s' : Reconciliation}

/-- How a turn ends. -/
inductive Outcome (s s' : Reconciliation) : Operation → Prop
  | skipped (op : UndeleteOperation) (same : s' = s) : Outcome s s' (.undelete op)
  | gone (op : DeleteOperation) (gone : s.Gone op) (same : s' = s) : Outcome s s' (.delete op)
  | again (op newOp : Operation) (minted : s.MintsAgain op newOp)
      (sent : s'.resent = s.resent ++ [newOp]) : Outcome s s' op

/-- A turn does not throw, and ends in one of the three ways. -/
theorem replay_outcome (sound : s.engine.Sound) (op : Operation) :
    ∃ s', s.replay op = .ok s' ∧ Outcome s s' op := by
  cases op with
  | undelete op => exact ⟨s, rfl, .skipped op rfl⟩
  | insert op =>
      obtain ⟨newOp, e', inserted, -⟩ :=
        sound.localInsert_spec (s.insertIndex op) (s.insertIndex_le sound op) op.value op.bind
      have fields := Engine.inserts_of_localInsert inserted
      have replayed : s.replay (.insert op) = .ok ⟨e',
          Function.update s.remap op.id (some newOp.id), s.resent ++ [.insert newOp]⟩ := by
        rw [replay, inserted]
        rfl
      exact ⟨_, replayed, .again (.insert op) (.insert newOp)
        ⟨⟨fields.value, fields.bind⟩, _, replayed, rfl⟩ rfl⟩
  | delete op =>
      cases found : visibleIndexOfTarget s.engine (s.resolve op.target) with
      | none =>
          refine ⟨s, ?_, .gone op (deleted_of_visibleIndexOfTarget sound found) rfl⟩
          rw [replay, found]
      | some k =>
          obtain ⟨n, shown, named⟩ := visible_of_visibleIndexOfTarget sound found
          obtain ⟨ops, e', deleted, -, spec⟩ := sound.localDelete_at k 1
          obtain ⟨inside, here⟩ := List.getElem?_eq_some_iff.mp shown
          have targets : ops.map DeleteOperation.target = [n.id] := by
            rw [spec.targets, List.drop_eq_getElem_cons inside, here]
            rfl
          obtain ⟨newOp, rfl, target⟩ := List.map_eq_singleton_iff.mp targets
          have replayed : s.replay (.delete op) = .ok ⟨e',
              Function.update s.remap op.id (some newOp.id), s.resent ++ [.delete newOp]⟩ := by
            simp only [replay, found]
            rw [deleted]
            rfl
          exact ⟨_, replayed, .again (.delete op) (.delete newOp)
            ⟨target.trans named, _, replayed, rfl⟩ rfl⟩

theorem Outcome.resent_subset {op : Operation} (outcome : Outcome s s' op) :
    s.resent ⊆ s'.resent := by
  cases outcome with
  | skipped op same => exact same ▸ List.Subset.refl _
  | gone op gone same => exact same ▸ List.Subset.refl _
  | again op newOp minted sent => exact sent ▸ List.subset_append_left ..

/-! ### The whole replay -/

/-- What came of a queued operation in its turn, when the replay has sent `resent`. -/
inductive Settled (resent : List Operation) (s : Reconciliation) : Operation → Prop
  | skipped (op : UndeleteOperation) : Settled resent s (.undelete op)
  | gone (op : DeleteOperation) (gone : s.Gone op) : Settled resent s (.delete op)
  | again (op newOp : Operation) (minted : s.MintsAgain op newOp) (sent : newOp ∈ resent) :
      Settled resent s op

theorem Outcome.settled {op : Operation} {resent : List Operation} (outcome : Outcome s s' op)
    (kept : s'.resent ⊆ resent) : Settled resent s op := by
  cases outcome with
  | skipped op same => exact .skipped op
  | gone op gone same => exact .gone op gone
  | again op newOp minted sent => exact .again op newOp minted (kept (sent ▸ by simp))

/-- The replay of a queue does not throw, and every operation of it is settled in its turn. -/
theorem turns_spec (reachable : s.engine.Reachable) (ops : List Operation) :
    ∃ s', ops.foldlM replay s = .ok s' ∧ s.resent ⊆ s'.resent ∧
      ∀ op ∈ ops, ∃ t, (t, op) ∈ s.turns ops ∧ Settled s'.resent t op := by
  induction ops generalizing s with
  | nil => exact ⟨s, rfl, List.Subset.refl _, nofun⟩
  | cons op ops ih =>
      obtain ⟨s₁, replayed, outcome⟩ := replay_outcome reachable.sound op
      obtain ⟨ids, replays⟩ := replay_spec reachable replayed
      obtain ⟨s', rest, kept, settled⟩ := ih replays.grows.reachable
      refine ⟨s', ?_, fun x sent => kept (outcome.resent_subset sent), fun x member => ?_⟩
      · rw [List.foldlM_cons, replayed]
        exact rest
      · rw [turns, replayed]
        rcases List.mem_cons.mp member with rfl | later
        · exact ⟨s, List.mem_cons_self, outcome.settled kept⟩
        · obtain ⟨t, turn, done⟩ := settled x later
          exact ⟨t, List.mem_cons_of_mem _ turn, done⟩

end Reconciliation

end ConfluenceEditor
