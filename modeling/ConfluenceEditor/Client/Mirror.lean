/-
Replaying an offline queue mirrors the edits that filled it.

`Mirrors` relates the document the client edited offline to the rebuilt engine: the same characters
in the same order under renamed identifiers. Every queued operation keeps the relation
(`OfflineEdits.mirrors`): the anchor of an insert stands next to a visible node in both documents,
so the visible index computed from it leads to the same place.
-/

import ConfluenceEditor.Client.CleanBase

namespace ConfluenceEditor

open Engine

/-- After the replay of `ops`, the engine holds the inserts of `doc` under the identifiers the map
gives them; the nodes of `gone` are the deleted ones. -/
structure Mirrors (base ops : List Operation) (doc : List InsertOperation)
    (gone : Identifier → Prop) (replicaId : Nat) (s : Reconciliation) : Prop where
  built : Built s.engine (base ++ s.resent)
  replica : s.engine.replicaId = replicaId
  nodes : (s.engine.tree.nodes.map fun n => (n.id, n.value)) =
    doc.map fun a => (s.resolve a.id, a.value)
  shown : ∀ a ∈ doc, dotOf (base ++ s.resent) (s.resolve a.id) = none ↔ ¬ gone a.id
  keys : ∀ id, s.remap id ≠ none → ∃ op ∈ ops, op.id = id
  own : ∀ op ∈ s.resent, op.id.r = replicaId
  kept : ∀ und, .undelete und ∉ s.resent
  apart : Network.SiblingsApart (base ++ s.resent)
  rootRight : ∀ ins : InsertOperation, .insert ins ∈ base ++ s.resent → ins.parent = none →
    ins.side = .R

namespace Reconciliation

/-- A renaming does not change what other identifiers resolve to. -/
theorem resolve_update (s : Reconciliation) (e : Engine) (resent : List Operation)
    {id new other : Identifier} (ne : other ≠ id) :
    resolve ⟨e, Function.update s.remap id (some new), resent⟩ other = s.resolve other := by
  simp [resolve, ne]

end Reconciliation

namespace Mirrors

variable {base ops : List Operation} {doc before after : List InsertOperation}
  {gone : Identifier → Prop} {replicaId : Nat} {s : Reconciliation}

theorem node_shown (mirrors : Mirrors base ops doc gone replicaId s) {n : Node}
    (member : n ∈ s.engine.tree.nodes) :
    n.deleted = false ↔ dotOf (base ++ s.resent) n.id = none := by
  rw [mirrors.built.deleted n member, mirrors.built.deletedBy n member]
  cases dotOf (base ++ s.resent) n.id <;> simp

theorem node_rootRight (mirrors : Mirrors base ops doc gone replicaId s) :
    ∀ n ∈ s.engine.tree.nodes, n.parent = none → n.side = .R := fun _ member =>
  mirrors.rootRight _ (mirrors.built.mem_history_of_node member)

/-- Different inserts of the document have different images. -/
theorem resolve_inj (mirrors : Mirrors base ops doc gone replicaId s) {a b : InsertOperation}
    (inA : a ∈ doc) (inB : b ∈ doc) (same : s.resolve a.id = s.resolve b.id) : a = b := by
  have nodup := mirrors.built.wf.nodup
  have ids : s.engine.tree.nodes.map Node.id = doc.map fun a => s.resolve a.id := by
    have whole := congrArg (List.map Prod.fst) mirrors.nodes
    rwa [List.map_map, List.map_map] at whole
  rw [ids] at nodup
  exact List.inj_on_of_nodup_map nodup inA inB same

/-- A split of the document is a split of the engine's nodes. -/
theorem split (mirrors : Mirrors base ops (before ++ after) gone replicaId s) :
    ∃ first last, s.engine.tree.nodes = first ++ last ∧
      (first.map fun n => (n.id, n.value)) = before.map (fun a => (s.resolve a.id, a.value)) ∧
      (last.map fun n => (n.id, n.value)) = after.map fun a => (s.resolve a.id, a.value) := by
  have nodes := mirrors.nodes
  rw [List.map_append] at nodes
  exact List.map_eq_append_iff.mp nodes

theorem last_of_map {first : List Node} {start : List InsertOperation} {a : InsertOperation}
    (same : (first.map fun n => (n.id, n.value)) =
      (start ++ [a]).map fun a => (s.resolve a.id, a.value)) :
    ∃ first' n, first = first' ++ [n] ∧ n.id = s.resolve a.id := by
  rw [List.map_append, List.map_singleton] at same
  obtain ⟨first', single, rfl, -, last⟩ := List.map_eq_append_iff.mp same
  obtain ⟨n, rfl, image⟩ := List.map_eq_singleton_iff.mp last
  exact ⟨first', n, rfl, congrArg Prod.fst image⟩

/-- An undelete is skipped. -/
theorem undelete (mirrors : Mirrors base ops doc gone replicaId s) {und : UndeleteOperation}
    {gone' : Identifier → Prop} (same : ∀ id, gone' id ↔ gone id) :
    Mirrors base (ops ++ [.undelete und]) doc gone' replicaId s where
  built := mirrors.built
  replica := mirrors.replica
  nodes := mirrors.nodes
  shown a member := by rw [mirrors.shown a member, same]
  keys id known := by
    obtain ⟨op, member, named⟩ := mirrors.keys id known
    exact ⟨op, List.mem_append_left _ member, named⟩
  own := mirrors.own
  kept := mirrors.kept
  apart := mirrors.apart
  rootRight := mirrors.rootRight

/-! ### A queued insert -/

/-- The index computed from the anchor is the number of visible nodes before the new node's place,
and that place follows a visible node or is the start. -/
theorem anchor (mirrors : Mirrors base ops (before ++ after) gone replicaId s)
    {ins : InsertOperation} (beside : Beside (fun id => ¬ gone id) ins before after) :
    ∃ first last, s.engine.tree.nodes = first ++ last ∧
      (first.map fun n => (n.id, n.value)) = before.map (fun a => (s.resolve a.id, a.value)) ∧
      (last.map fun n => (n.id, n.value)) = after.map (fun a => (s.resolve a.id, a.value)) ∧
      (first = [] ∨ ∃ start n, first = start ++ [n] ∧ n.deleted = false) ∧
      s.insertIndex ins = countVisible first := by
  obtain ⟨first, last, nodes, firstMap, lastMap⟩ := mirrors.split
  refine ⟨first, last, nodes, firstMap, lastMap, ?_⟩
  have nodup := mirrors.built.nodup_nodes
  have listed := mirrors.built.nodes_eq
  -- a visible insert at the end of `before` is a visible node at the end of `first`
  have origin : ∀ {start a}, before = start ++ [a] → ¬ gone a.id →
      ∃ start' n, first = start' ++ [n] ∧ n.id = s.resolve a.id ∧ n.deleted = false := by
    rintro start a rfl present
    obtain ⟨start', n, rfl, image⟩ := last_of_map firstMap
    refine ⟨start', n, rfl, image, ?_⟩
    rw [mirrors.node_shown (by simp [nodes]), image]
    exact (mirrors.shown a (by simp)).mpr present
  unfold Beside at beside
  rw [Reconciliation.insertIndex]
  cases parent : ins.parent with
  | none =>
      rw [parent] at beside
      obtain ⟨rfl, rfl⟩ := beside
      obtain rfl : first = [] := List.map_eq_nil_iff.mp firstMap
      exact ⟨Or.inl rfl, rfl⟩
  | some p =>
      rw [parent] at beside
      cases side : ins.side with
      | R =>
          rw [side] at beside
          obtain ⟨start, a, ends, rfl, present⟩ := beside
          obtain ⟨start', n, rfl, image, shown⟩ := origin ends present
          refine ⟨Or.inr ⟨start', n, rfl, shown⟩, ?_⟩
          change visibleIndexAfter s.engine (some (s.resolve a.id)) = countVisible (start' ++ [n])
          rw [← image]
          exact visibleIndexAfter_eq (by rw [listed, nodes, List.append_assoc]; rfl) nodup
      | L =>
          rw [side] at beside
          obtain ⟨⟨a, rest, rfl, rfl⟩, start⟩ := beside
          have left : first = [] ∨ ∃ start n, first = start ++ [n] ∧ n.deleted = false := by
            rcases start with rfl | ⟨start, b, ends, present⟩
            · exact Or.inl (List.map_eq_nil_iff.mp firstMap)
            · obtain ⟨start', n, same, -, shown⟩ := origin ends present
              exact Or.inr ⟨start', n, same, shown⟩
          refine ⟨left, ?_⟩
          obtain ⟨n, rest', rfl, image, -⟩ := List.map_eq_cons_iff.mp lastMap
          have named : n.id = s.resolve a.id := congrArg Prod.fst image
          change visibleIndexBefore s.engine (s.resolve a.id) = countVisible first
          rw [← named]
          exact visibleIndexBefore_eq (by rw [listed, nodes]) nodup

theorem insert (mirrors : Mirrors base ops (before ++ after) gone replicaId s)
    {ins : InsertOperation} (fresh : ∀ a ∈ before ++ after, a.id ≠ ins.id)
    (beside : Beside (fun id => ¬ gone id) ins before after) (present : ¬ gone ins.id)
    {gone' : Identifier → Prop} (same : ∀ id, gone' id ↔ gone id) :
    ∃ s', s.replay (.insert ins) = .ok s' ∧
      Mirrors base (ops ++ [.insert ins]) (before ++ ins :: after) gone' replicaId s' := by
  obtain ⟨first, last, nodes, firstMap, lastMap, origin, index⟩ := mirrors.anchor beside
  obtain ⟨op, e, inserted, minted, value, list, rootRight, free⟩ :=
    mirrors.built.localInsert_at mirrors.node_rootRight nodes origin ins.value ins.bind
  refine ⟨⟨e, Function.update s.remap ins.id (some op.id), s.resent ++ [.insert op]⟩, ?_, ?_⟩
  · simp only [Reconciliation.replay, index, inserted, bind, Except.bind]
  have built : Built e (base ++ (s.resent ++ [.insert op])) := by
    rw [← List.append_assoc]
    exact minted.built
  have renamed : ∀ a ∈ before ++ after, Reconciliation.resolve
      ⟨e, Function.update s.remap ins.id (some op.id), s.resent ++ [.insert op]⟩ a.id =
        s.resolve a.id := fun a member => s.resolve_update e _ (fresh a member)
  have new : Reconciliation.resolve
      ⟨e, Function.update s.remap ins.id (some op.id), s.resent ++ [.insert op]⟩ ins.id = op.id := by
    simp [Reconciliation.resolve]
  refine ⟨built, minted.replicaId.trans mirrors.replica, ?_, fun a member => ?_,
    fun id known => ?_, fun x member => ?_, fun und member => ?_, ?_, fun a member orphan => ?_⟩
  · -- the new node stands where the document has the new insert
    change (e.tree.nodes.map fun n => (n.id, n.value)) = _
    rw [list, List.map_append, List.map_cons, List.map_append, List.map_cons, new, firstMap, lastMap]
    congr 1
    · exact List.map_congr_left fun a member => by
        rw [renamed a (List.mem_append_left _ member)]
    · refine congrArg₂ List.cons ?_ (List.map_congr_left fun a member => ?_)
      · exact congrArg (Prod.mk op.id) value
      · rw [renamed a (List.mem_append_right _ member)]
  · rw [same]
    change dotOf (base ++ (s.resent ++ [.insert op])) _ = none ↔ _
    rcases List.mem_append.mp member with old | tail
    · rw [renamed a (List.mem_append_left _ old), ← List.append_assoc, dotOf_append_singleton]
      exact mirrors.shown a (List.mem_append_left _ old)
    rcases List.mem_cons.mp tail with rfl | old
    · rw [new]
      have member : op.toNode ∈ e.tree.nodes := by simp [list]
      have dot := built.deletedBy op.toNode member
      exact iff_of_true dot.symm present
    · rw [renamed a (List.mem_append_right _ old), ← List.append_assoc, dotOf_append_singleton]
      exact mirrors.shown a (List.mem_append_right _ old)
  · by_cases here : id = ins.id
    · exact ⟨.insert ins, by simp, here.symm⟩
    · have known : s.remap id ≠ none := by simpa [here] using known
      obtain ⟨x, member, named⟩ := mirrors.keys id known
      exact ⟨x, List.mem_append_left _ member, named⟩
  · rcases List.mem_append.mp member with old | last
    · exact mirrors.own x old
    · exact (minted.fresh x last).1.trans mirrors.replica
  · rcases List.mem_append.mp member with old | last
    · exact mirrors.kept und old
    · cases List.mem_singleton.mp last
  · have occupied : ∀ b, Operation.insert b ∈ base ++ s.resent →
        ¬ (b.parent = op.parent ∧ b.side = op.side) := by
      intro b known
      obtain ⟨m, inside, rfl⟩ := List.mem_map.mp ((mirrors.built.inserts b).mpr known)
      exact free m inside
    intro a b inA inB parent side replica
    change Operation.insert a ∈ base ++ (s.resent ++ [.insert op]) at inA
    change Operation.insert b ∈ base ++ (s.resent ++ [.insert op]) at inB
    rw [← List.append_assoc, List.mem_append, List.mem_singleton, Operation.insert.injEq] at inA inB
    rcases inA with oldA | rfl
    · rcases inB with oldB | rfl
      · exact mirrors.apart a b oldA oldB parent side replica
      · exact absurd ⟨parent, side⟩ (occupied a oldA)
    · rcases inB with oldB | rfl
      · exact absurd ⟨parent.symm, side.symm⟩ (occupied b oldB)
      · rfl
  · change Operation.insert a ∈ base ++ (s.resent ++ [.insert op]) at member
    rw [← List.append_assoc, List.mem_append, List.mem_singleton, Operation.insert.injEq] at member
    rcases member with old | rfl
    · exact mirrors.rootRight a old orphan
    · exact rootRight orphan

/-! ### A queued delete -/

theorem delete (mirrors : Mirrors base ops doc gone replicaId s) {del : DeleteOperation}
    (fresh : ∀ a ∈ doc, a.id ≠ del.id) (present : ∃ a ∈ doc, a.id = del.target)
    {gone' : Identifier → Prop} (same : ∀ id, gone' id ↔ gone id ∨ id = del.target) :
    ∃ s', s.replay (.delete del) = .ok s' ∧
      Mirrors base (ops ++ [.delete del]) doc gone' replicaId s' := by
  obtain ⟨target, inDoc, named⟩ := present
  have keys : ∀ {id}, s.remap id ≠ none → ∃ op ∈ ops ++ [.delete del], op.id = id := fun known => by
    obtain ⟨op, member, same⟩ := mirrors.keys _ known
    exact ⟨op, List.mem_append_left _ member, same⟩
  obtain ⟨front, back, rfl⟩ := List.append_of_mem inDoc
  obtain ⟨first, rest, nodes, -, restMap⟩ := mirrors.split
  obtain ⟨n, last, rfl, image, -⟩ := List.map_eq_cons_iff.mp restMap
  have id : n.id = s.resolve del.target := by
    rw [← named]
    exact congrArg Prod.fst image
  have listed : s.engine.nodes = first ++ n :: last := by rw [mirrors.built.nodes_eq, nodes]
  have index := visibleIndexOfTarget_eq listed mirrors.built.nodup_nodes
  rw [id] at index
  have shown_iff := mirrors.node_shown (n := n) (by simp [nodes])
  rw [id, ← named, mirrors.shown target inDoc] at shown_iff
  cases deleted : n.deleted with
  | true =>
      -- the replay has deleted it before
      have already : gone del.target := by
        rw [deleted] at shown_iff
        rw [← named]
        simpa using shown_iff
      refine ⟨s, ?_, mirrors.built, mirrors.replica, mirrors.nodes, fun a member => ?_,
        fun id => keys, mirrors.own, mirrors.kept, mirrors.apart, mirrors.rootRight⟩
      · simp [Reconciliation.replay, index, deleted]
      · rw [mirrors.shown a member, same]
        refine not_congr ⟨Or.inl, ?_⟩
        rintro (before | here)
        · exact before
        · rw [here]
          exact already
  | false =>
      obtain ⟨op, e, removed, hit, minted⟩ := mirrors.built.localDelete_at nodes deleted
      refine ⟨⟨e, Function.update s.remap del.id (some op.id), s.resent ++ [.delete op]⟩, ?_, ?_⟩
      · simp [Reconciliation.replay, index, deleted, removed, bind, Except.bind]
      have built : Built e (base ++ (s.resent ++ [.delete op])) := by
        rw [← List.append_assoc]
        exact minted.built
      have renamed : ∀ a ∈ front ++ target :: back, Reconciliation.resolve
          ⟨e, Function.update s.remap del.id (some op.id), s.resent ++ [.delete op]⟩ a.id =
            s.resolve a.id := fun a member => s.resolve_update e _ (fresh a member)
      have skeleton := minted.skeleton fun x member ins => by
        rw [List.mem_singleton.mp member]
        simp
      have insertOld : ∀ {a : InsertOperation},
          Operation.insert a ∈ base ++ (s.resent ++ [.delete op]) →
            Operation.insert a ∈ base ++ s.resent := by
        intro a member
        rw [← List.append_assoc, List.mem_append, List.mem_singleton] at member
        exact member.resolve_right fun impossible => by cases impossible
      refine ⟨built, minted.replicaId.trans mirrors.replica, ?_, fun a member => ?_,
        fun id known => ?_, fun x member => ?_, fun und member => ?_,
        fun a b inA inB => mirrors.apart a b (insertOld inA) (insertOld inB),
        fun a member => mirrors.rootRight a (insertOld member)⟩
      · have pairs := congrArg (List.map fun ins : InsertOperation => (ins.id, ins.value)) skeleton
        rw [List.map_map, List.map_map] at pairs
        refine pairs.trans (mirrors.nodes.trans (List.map_congr_left fun a member => ?_))
        rw [renamed a member]
      · rw [renamed a member, same, ← List.append_assoc, dotOf_append_singleton, stepDot]
        by_cases here : a.id = del.target
        · rw [if_pos (by rw [hit, id, here])]
          simp [here]
        · have other : op.target ≠ s.resolve a.id := by
            rw [hit, id, ← named]
            intro clash
            exact here ((congrArg InsertOperation.id
              (mirrors.resolve_inj inDoc member clash)).symm.trans named)
          rw [if_neg other, mirrors.shown a member]
          simp [here]
      · by_cases here : id = del.id
        · exact ⟨.delete del, by simp, here.symm⟩
        · exact keys (by simpa [here] using known)
      · rcases List.mem_append.mp member with old | last
        · exact mirrors.own x old
        · exact (minted.fresh x last).1.trans mirrors.replica
      · rcases List.mem_append.mp member with old | last
        · exact mirrors.kept und old
        · cases List.mem_singleton.mp last

end Mirrors

/-! ### The whole queue -/

/-- The nodes that are deleted in the mirror: by the clean base or by the replay so far. -/
def Gone (base ops : List Operation) (id : Identifier) : Prop :=
  dotOf base id ≠ none ∨ Targeted ops id

theorem gone_snoc {base ops : List Operation} {op : Operation} {id : Identifier} :
    Gone base (ops ++ [op]) id ↔ Gone base ops id ∨ ∃ d, op = .delete ⟨d, id⟩ := by
  rw [Gone, Gone, targeted_snoc, or_assoc]

/-- The replay of a queue succeeds and mirrors the edits, as long as the base deletes only what the
document had deleted. -/
theorem OfflineEdits.mirrors {history base ops : List Operation}
    {document doc : List InsertOperation} {fresh : Engine}
    (edits : OfflineEdits history document ops doc) (built : Built fresh base)
    (skeleton : fresh.tree.nodes.map Node.toInsert = document)
    (apart : Network.SiblingsApart base)
    (rootRight : ∀ ins : InsertOperation, .insert ins ∈ base → ins.parent = none → ins.side = .R)
    (shown : ∀ id, dotOf history id = none → dotOf base id = none) :
    ∃ s, reconcileOfflineQueue fresh ops = .ok s ∧
      Mirrors base ops doc (Gone base ops) fresh.replicaId s := by
  -- what is visible offline is visible in the mirror
  have present : ∀ {ops doc}, OfflineEdits history document ops doc → ∀ id,
      dotOf (history ++ ops) id = none → ¬ Gone base ops id := by
    rintro ops doc edits id visible (deleted | targeted)
    · exact deleted (shown id ((edits.dotOf_eq_none_iff id).mp visible).1)
    · exact ((edits.dotOf_eq_none_iff id).mp visible).2 targeted
  have snoc : ∀ {ops : List Operation} {s : Reconciliation} (op : Operation),
      reconcileOfflineQueue fresh ops = .ok s →
        reconcileOfflineQueue fresh (ops ++ [op]) = s.replay op := by
    intro ops s op replayed
    rw [reconcileOfflineQueue] at replayed ⊢
    rw [List.foldlM_append, replayed]
    simp [bind, Except.bind, pure, Except.pure]
    cases s.replay op <;> rfl
  induction edits with
  | nil =>
      refine ⟨_, rfl, by rwa [List.append_nil], rfl, ?_, fun a member => ?_, by simp, by simp,
        by simp, by rwa [List.append_nil], by rwa [List.append_nil]⟩
      · rw [← skeleton, List.map_map]
        rfl
      · rw [List.append_nil]
        simp [Gone, Targeted, Deletes, Reconciliation.resolve]
  | @insert ops before after ins earlier newId spared beside ih =>
      obtain ⟨s, replayed, mirrors⟩ := ih
      have beside' : Beside (fun id => ¬ Gone base ops id) ins before after := by
        unfold Beside at beside ⊢
        split at beside
        · exact beside
        · obtain ⟨first, a, ends, named, visible⟩ := beside
          exact ⟨first, a, ends, named, present earlier _ visible⟩
        · refine beside.imp_right fun start => start.imp_right ?_
          rintro ⟨first, a, ends, visible⟩
          exact ⟨first, a, ends, present earlier _ visible⟩
      have same : ∀ id, Gone base (ops ++ [.insert ins]) id ↔ Gone base ops id := fun id => by
        simp [gone_snoc]
      obtain ⟨s', step, mirrors'⟩ := mirrors.insert newId beside' (present earlier _ spared) same
      exact ⟨s', (snoc _ replayed).trans step, mirrors'⟩
  | @delete ops doc del earlier newId inDoc ih =>
      obtain ⟨s, replayed, mirrors⟩ := ih
      have same : ∀ id, Gone base (ops ++ [.delete del]) id ↔
          Gone base ops id ∨ id = del.target := by
        intro id
        rw [gone_snoc]
        refine or_congr_right ⟨?_, ?_⟩
        · rintro ⟨d, same⟩
          rw [Operation.delete.inj same]
        · rintro rfl
          exact ⟨del.id, rfl⟩
      obtain ⟨s', step, mirrors'⟩ := mirrors.delete newId inDoc same
      exact ⟨s', (snoc _ replayed).trans step, mirrors'⟩
  | @undelete ops doc und earlier idle ih =>
      obtain ⟨s, replayed, mirrors⟩ := ih
      refine ⟨s, (snoc _ replayed).trans rfl, mirrors.undelete fun id => ?_⟩
      simp [gone_snoc]

end ConfluenceEditor
