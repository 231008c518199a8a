/-
What an offline queue leaves of the synced document.

`OfflineEdits` describes the operations that local edits mint on a document, together with the
ordered inserts of the document after them, for edits that revive no node. The engine that a
reconnect seeds from the clean base has the inserts of the synced history and those of its
tombstones that the queue does not touch (`seed_spec`).
-/

import ConfluenceEditor.Client.Reconcile

namespace ConfluenceEditor

open Engine

/-- Some operation of the list deletes the node. -/
def Targeted (ops : List Operation) (target : Identifier) : Prop := ∃ d, Deletes ops target d

theorem targeted_snoc {ops : List Operation} {op : Operation} {target : Identifier} :
    Targeted (ops ++ [op]) target ↔ Targeted ops target ∨ ∃ d, op = .delete ⟨d, target⟩ := by
  simp only [Targeted, Deletes, List.mem_append, List.mem_singleton, exists_or, eq_comm (b := op)]

/-- One operation more: a delete hides its node, and an undelete that changes no attribution reveals
nothing. -/
theorem dotOf_snoc_eq_none_iff {history : List Operation} {op : Operation}
    (idle : ∀ und, op = .undelete und →
      stepDot und.target (dotOf history und.target) op = dotOf history und.target)
    (target : Identifier) : dotOf (history ++ [op]) target = none ↔
      dotOf history target = none ∧ ¬ ∃ d, op = .delete ⟨d, target⟩ := by
  rw [dotOf_append_singleton]
  cases op with
  | insert ins => simp [stepDot]
  | delete del =>
      rw [stepDot]
      by_cases here : del.target = target
      · rw [if_pos here]
        simp only [reduceCtorEq, false_iff, not_and, not_not]
        exact fun _ => ⟨del.id, by rw [← here]⟩
      · have other : ¬ ∃ d, Operation.delete del = .delete ⟨d, target⟩ := by
          rintro ⟨d, same⟩
          exact here (congrArg DeleteOperation.target (Operation.delete.inj same))
        rw [if_neg here]
        exact (and_iff_left other).symm
  | undelete und =>
      have unchanged : stepDot target (dotOf history target) (.undelete und) =
          dotOf history target := by
        by_cases here : und.target = target
        · rw [← here]
          exact idle und rfl
        · exact if_neg here
      rw [unchanged]
      simp

/-- Without undeletes, a node stays visible when it is not deleted. -/
theorem dotOf_append_eq_none_iff {history later : List Operation}
    (kept : ∀ und, .undelete und ∉ later) (target : Identifier) :
    dotOf (history ++ later) target = none ↔
      dotOf history target = none ∧ ¬ Targeted later target := by
  induction later using List.reverseRecOn with
  | nil => simp [Targeted, Deletes]
  | append_singleton later op ih =>
      rw [← List.append_assoc, dotOf_snoc_eq_none_iff, targeted_snoc, not_or, ← and_assoc, ih]
      · exact fun und member => kept und (List.mem_append_left _ member)
      · rintro und rfl
        exact absurd (List.mem_append_right _ (by simp)) (kept und)

/-- Where a new insert stands among the others: next to the parent it names, and after a visible
node or at the very start. -/
def Beside (shown : Identifier → Prop) (ins : InsertOperation)
    (before after : List InsertOperation) : Prop :=
  match ins.parent, ins.side with
  | none, _ => before = [] ∧ after = []
  | some p, .R => ∃ first a, before = first ++ [a] ∧ a.id = p ∧ shown p
  | some p, .L => (∃ a last, after = a :: last ∧ a.id = p) ∧
      (before = [] ∨ ∃ first a, before = first ++ [a] ∧ shown a.id)

/-- The operations minted by local edits on `document`, which `history` built, and the document
after them; no undelete among them changes an attribution. -/
inductive OfflineEdits (history : List Operation) (document : List InsertOperation) :
    List Operation → List InsertOperation → Prop where
  | nil : OfflineEdits history document [] document
  | insert {ops : List Operation} {before after : List InsertOperation} {ins : InsertOperation}
      (earlier : OfflineEdits history document ops (before ++ after))
      (fresh : ∀ a ∈ before ++ after, a.id ≠ ins.id)
      (spared : dotOf (history ++ ops) ins.id = none)
      (beside : Beside (fun id => dotOf (history ++ ops) id = none) ins before after) :
      OfflineEdits history document (ops ++ [.insert ins]) (before ++ ins :: after)
  | delete {ops : List Operation} {doc : List InsertOperation} {del : DeleteOperation}
      (earlier : OfflineEdits history document ops doc)
      (fresh : ∀ a ∈ doc, a.id ≠ del.id)
      (present : ∃ a ∈ doc, a.id = del.target) :
      OfflineEdits history document (ops ++ [.delete del]) doc
  | undelete {ops : List Operation} {doc : List InsertOperation} {und : UndeleteOperation}
      (earlier : OfflineEdits history document ops doc)
      (idle : stepDot und.target (dotOf (history ++ ops) und.target) (.undelete und) =
        dotOf (history ++ ops) und.target) :
      OfflineEdits history document (ops ++ [.undelete und]) doc

namespace OfflineEdits

variable {history ops : List Operation} {document doc : List InsertOperation}

/-- A node is visible after the edits when it was before them and none of them deletes it. -/
theorem dotOf_eq_none_iff (edits : OfflineEdits history document ops doc) (target : Identifier) :
    dotOf (history ++ ops) target = none ↔ dotOf history target = none ∧ ¬ Targeted ops target := by
  induction edits with
  | nil => simp [Targeted, Deletes]
  | insert earlier fresh spared beside ih =>
      rw [← List.append_assoc, dotOf_snoc_eq_none_iff (by simp), ih, targeted_snoc, not_or, and_assoc]
  | delete earlier fresh present ih =>
      rw [← List.append_assoc, dotOf_snoc_eq_none_iff (by simp), ih, targeted_snoc, not_or, and_assoc]
  | undelete earlier idle ih =>
      rw [← List.append_assoc, dotOf_snoc_eq_none_iff, ih, targeted_snoc, not_or, and_assoc]
      rintro und same
      obtain rfl := Operation.undelete.inj same
      exact idle

end OfflineEdits

/-- Deletes with greater counters win the attribution. -/
theorem deletes_of_targeted {history ops : List Operation}
    (above : ∀ op ∈ ops, ∀ old ∈ history, old.id.c < op.id.c) {target d : Identifier}
    (targeted : Targeted ops target) (dot : dotOf (history ++ ops) target = some d) :
    Deletes ops target d := by
  by_contra absent
  have old : dotOf history target = some d := by
    rw [dotOf_append] at dot
    exact (foldl_eq_some dot).resolve_right absent
  rw [dotOf_append, old, foldl_some_iff absent] at dot
  obtain ⟨d', deleted⟩ := targeted
  have later := above _ deleted _ (deletes_of_dotOf old)
  exact dot.greatest d' deleted (Identifier.lt_iff.mpr (Or.inl later))

/-! ### The clean base -/

theorem mem_buildCleanCatchupBase {nodes : List Node} {unackedIds : List Identifier} {n' : Node} :
    n' ∈ buildCleanCatchupBase nodes unackedIds ↔ ∃ n ∈ nodes, n.id ∉ unackedIds ∧
      n' = if n.deleted && n.deletedBy.any fun d => decide (d ∈ unackedIds) then
        { n with deleted := false, deletedBy := none } else n := by
  rw [buildCleanCatchupBase, List.mem_filterMap]
  refine exists_congr fun n => and_congr_right fun _ => ?_
  by_cases unacked : n.id ∈ unackedIds
  · simp [unacked]
  · simp only [unacked, if_false, not_false_eq_true, true_and]
    split_ifs with reverted
    · rw [Option.some.injEq, eq_comm]
    · rw [Option.some.injEq, eq_comm]

/-- What the engine seeded from the clean base is built from. -/
structure CleanBase (history ops base : List Operation) : Prop where
  inserts : ∀ ins, .insert ins ∈ base ↔ .insert ins ∈ history
  subset : ∀ op ∈ base, op ∈ history
  shown : ∀ target, dotOf base target = none ↔ dotOf history target = none ∨ Targeted ops target

section CleanBase

variable {synced e : Engine} {history ops : List Operation} {doc : List InsertOperation}

theorem id_not_mem_queue (above : ∀ op ∈ ops, ∀ old ∈ history, old.id.c < op.id.c)
    {old : Operation} (known : old ∈ history) : old.id ∉ ops.map Operation.id := by
  intro member
  obtain ⟨op, inOps, same⟩ := List.mem_map.mp member
  have later := above op inOps old known
  rw [same] at later
  exact absurd later (lt_irrefl _)

/-- The clean base has the inserts of the synced history. -/
theorem insert_mem_cleanBase (built : Built e (history ++ ops))
    (above : ∀ op ∈ ops, ∀ old ∈ history, old.id.c < op.id.c) (ins : InsertOperation) :
    ins ∈ (buildCleanCatchupBase e.nodes (ops.map Operation.id)).map Node.toInsert ↔
      .insert ins ∈ history := by
  rw [List.mem_map]
  constructor
  · rintro ⟨n', member, rfl⟩
    obtain ⟨n, inside, kept, rfl⟩ := mem_buildCleanCatchupBase.mp member
    rw [built.nodes_eq] at inside
    have same : (if n.deleted && n.deletedBy.any fun d => decide (d ∈ ops.map Operation.id) then
        { n with deleted := false, deletedBy := none } else n).toInsert = n.toInsert := by
      split_ifs <;> rfl
    rw [same]
    refine (List.mem_append.mp (built.mem_history_of_node inside)).resolve_right fun new => ?_
    exact kept (List.mem_map.mpr ⟨_, new, rfl⟩)
  · intro known
    obtain ⟨n, inside, rfl⟩ :=
      List.mem_map.mp ((built.inserts ins).mpr (List.mem_append_left _ known))
    refine ⟨_, mem_buildCleanCatchupBase.mpr ⟨n, by rwa [built.nodes_eq],
      id_not_mem_queue above known, rfl⟩, ?_⟩
    split_ifs <;> rfl

/-- The clean base has the tombstones that the queue does not touch. -/
theorem delete_mem_cleanBase (start : Built synced history) (built : Built e (history ++ ops))
    (edits : OfflineEdits history (synced.tree.nodes.map Node.toInsert) ops doc)
    (above : ∀ op ∈ ops, ∀ old ∈ history, old.id.c < op.id.c) (target d : Identifier) :
    Operation.delete ⟨d, target⟩ ∈
        snapshotOps (buildCleanCatchupBase e.nodes (ops.map Operation.id)) ↔
      dotOf history target = some d ∧ ¬ Targeted ops target := by
  rw [delete_mem_snapshotOps]
  constructor
  · rintro ⟨n', member, named, dot⟩
    obtain ⟨n, inside, kept, rfl⟩ := mem_buildCleanCatchupBase.mp member
    rw [built.nodes_eq] at inside
    split_ifs at named dot with reverted
    have flag := built.deleted n inside
    have foreign : d ∉ ops.map Operation.id := by
      rw [dot, Option.isSome_some] at flag
      simpa [flag, dot] using reverted
    have spared : ¬ Deletes ops target d := fun deleted =>
      foreign (List.mem_map.mpr ⟨_, deleted, rfl⟩)
    rw [built.deletedBy n inside, named] at dot
    refine ⟨?_, fun targeted => spared (deletes_of_targeted above targeted dot)⟩
    rw [dotOf_append] at dot
    exact (foldl_eq_some dot).resolve_right spared
  · rintro ⟨old, spared⟩
    obtain ⟨ins, inserted, rfl⟩ := start.causal.met (deletes_of_dotOf old) target rfl
    obtain ⟨n, inside, rfl⟩ :=
      List.mem_map.mp ((built.inserts ins).mpr (List.mem_append_left _ inserted))
    rw [Node.toInsert_id] at old spared
    have dot : n.deletedBy = some d := by
      rw [built.deletedBy n inside]
      cases dot : dotOf (history ++ ops) n.id with
      | none =>
          rw [((edits.dotOf_eq_none_iff n.id).mp dot).1] at old
          cases old
      | some d' =>
          rw [dotOf_append] at dot
          rcases foldl_eq_some dot with same | deleted
          · exact same.symm.trans old
          · exact absurd ⟨d', deleted⟩ spared
    have foreign : d ∉ ops.map Operation.id := id_not_mem_queue above (deletes_of_dotOf old)
    refine ⟨n, mem_buildCleanCatchupBase.mpr ⟨n, by rwa [built.nodes_eq],
      id_not_mem_queue above inserted, ?_⟩, rfl, dot⟩
    rw [if_neg]
    simpa [dot] using fun _ => foreign

/-- Seeding from the clean base brings back the synced document, less the tombstones of the nodes
that the queue deletes. -/
theorem seed_spec (start : Built synced history) (built : Built e (history ++ ops))
    (edits : OfflineEdits history (synced.tree.nodes.map Node.toInsert) ops doc)
    (above : ∀ op ∈ ops, ∀ old ∈ history, old.id.c < op.id.c)
    (apart : Network.SiblingsApart history) (replicaId : Nat) :
    ∃ fresh base, seedEngineFromSnapshot replicaId
        (buildCleanCatchupBase e.nodes (ops.map Operation.id)) = .ok fresh ∧
      Built fresh base ∧ fresh.replicaId = replicaId ∧ CleanBase history ops base ∧
      fresh.tree.nodes.map Node.toInsert = synced.tree.nodes.map Node.toInsert := by
  set nodes := buildCleanCatchupBase e.nodes (ops.map Operation.id) with hnodes
  have flags : ∀ n ∈ nodes, n.deleted = n.deletedBy.isSome := by
    intro n' member
    obtain ⟨n, inside, -, rfl⟩ := mem_buildCleanCatchupBase.mp member
    split_ifs
    · rfl
    · exact built.deleted n (by rwa [built.nodes_eq] at inside)
  have inserts : ∀ ins, ins ∈ nodes.map Node.toInsert ↔ .insert ins ∈ history :=
    insert_mem_cleanBase built above
  have deletes : ∀ target d, Operation.delete ⟨d, target⟩ ∈ snapshotOps nodes ↔
      dotOf history target = some d ∧ ¬ Targeted ops target :=
    delete_mem_cleanBase start built edits above
  -- the inserts in the order of the history, then the tombstones
  have same : ∀ op, op ∈ insertsOf history ++ nodes.filterMap Node.tombstone ↔
      op ∈ snapshotOps nodes := by
    intro op
    cases op with
    | insert ins =>
        rw [insert_mem_snapshotOps, inserts]
        simp [insert_mem_insertsOf, Node.tombstone]
    | delete del => simp [snapshotOps, insertsOf]
    | undelete und => simp [snapshotOps, insertsOf]
  have inside : ∀ op ∈ snapshotOps nodes, op ∈ history := by
    rintro (ins | ⟨d, target⟩ | und) member
    · exact (inserts ins).mp (insert_mem_snapshotOps.mp member)
    · exact deletes_of_dotOf ((deletes target d).mp member).1
    · exact absurd member undelete_not_mem_snapshotOps
  have causal : Causal (insertsOf history ++ nodes.filterMap Node.tombstone) := by
    refine start.causal.insertsOf.append_of_met fun op member d named => ?_
    obtain ⟨ins, inserted, id⟩ := start.causal.met
      (inside op (List.mem_append_right _ member)) d named
    exact ⟨ins, insert_mem_insertsOf.mpr inserted, id⟩
  obtain ⟨fresh, base, seeded, builtFresh, -, sameReplica, members⟩ := replay_spec replicaId flags
    causal ((DistinctIds.of_nodup start.nodup).subset fun op member =>
      inside op ((same op).mp member)) same
  have baseInserts : ∀ ins, .insert ins ∈ base ↔ .insert ins ∈ history := fun ins => by
    rw [members, insert_mem_snapshotOps, inserts]
  refine ⟨fresh, base, seeded, builtFresh, sameReplica, ⟨baseInserts, fun op member =>
    inside op ((members op).mp member), fun target => ?_⟩, ?_⟩
  · have dots : ∀ d, dotOf base target = some d ↔
        dotOf history target = some d ∧ ¬ Targeted ops target := fun d => by
      rw [dotOf_eq_some_iff (fun a b first second => ?_)
        (fun u revived => undelete_not_mem_snapshotOps ((members _).mp revived)), Deletes, members,
        deletes]
      rw [Deletes, members, deletes] at first second
      exact Option.some.inj (first.1.symm.trans second.1)
    rw [Option.eq_none_iff_forall_ne_some, Option.eq_none_iff_forall_ne_some]
    simp only [ne_eq, dots, not_and, not_not]
    by_cases targeted : Targeted ops target
    · simp [targeted]
    · simp [targeted]
  · refine FugueTree.skeleton_eq builtFresh.wf start.wf (fun a ha b hb => ?_) fun ins => ?_
    · exact apart a b ((baseInserts a).mp ((builtFresh.inserts a).mp ha))
        ((baseInserts b).mp ((builtFresh.inserts b).mp hb))
    · rw [builtFresh.inserts, start.inserts, baseInserts]

end CleanBase

end ConfluenceEditor
