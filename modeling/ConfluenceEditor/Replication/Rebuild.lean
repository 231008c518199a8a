/-
Rebuilding an engine from a list of nodes.

`replaySnapshotNodesInto` feeds every node as an insert, in document order, and every tombstone as
one delete under the identifier that holds its attribution. An in-order walk meets a left child
before its parent, so inserts may be buffered on the way; nothing is left in the buffer at the end
(`replay_spec`). For the nodes of an engine the result has the same inserts and the same
attributions, but it remembers one delete per tombstone and no undelete (`Built.rebuild_spec`).
-/

import ConfluenceEditor.Engine.Sequence
import ConfluenceEditor.Engine.Sound
import ConfluenceEditor.Replication.Tombstones

namespace ConfluenceEditor

namespace Engine

def replayInserts (e : Engine) : List Node → Except String Engine
  | [] => .ok e
  | node :: nodes => do
      let (_, e) ← e.applyRemote (.insert node.toInsert) none
      e.replayInserts nodes

/-- `deletedBy` is asserted to be present for a deleted node. -/
def replayDeletes (e : Engine) : List Node → Except String Engine
  | [] => .ok e
  | node :: nodes =>
      if node.deleted then
        match node.deletedBy with
        | none => .error "TypeError: Cannot read properties of null (reading 'c')"
        | some deletedBy => do
            let (_, e) ← e.applyRemote (.delete ⟨deletedBy, node.id⟩) none
            e.replayDeletes nodes
      else e.replayDeletes nodes

def replaySnapshotNodesInto (e : Engine) (nodes : List Node) : Except String Engine := do
  let e ← e.replayInserts nodes
  e.replayDeletes nodes

end Engine

/-- A fresh engine seeded with the nodes of a snapshot. -/
def seedEngineFromSnapshot (replicaId : Nat) (nodes : List Node) : Except String Engine :=
  (Engine.new replicaId).replaySnapshotNodesInto nodes

/-! ### The operations of a snapshot -/

/-- The delete that a tombstone is replayed as. -/
def Node.tombstone (n : Node) : Option Operation :=
  n.deletedBy.map fun d => .delete ⟨d, n.id⟩

/-- The operations a list of nodes is replayed as. -/
def snapshotOps (nodes : List Node) : List Operation :=
  nodes.map (fun n => .insert n.toInsert) ++ nodes.filterMap Node.tombstone

theorem snapshotOps_subset {part nodes : List Node} (inside : ∀ n ∈ part, n ∈ nodes)
    {op : Operation} (member : op ∈ snapshotOps part) : op ∈ snapshotOps nodes := by
  rcases List.mem_append.mp member with fed | tombstone
  · exact List.mem_append_left _ (List.map_subset _ inside fed)
  · exact List.mem_append_right _ (List.filterMap_subset _ inside tombstone)

theorem insert_mem_snapshotOps {nodes : List Node} {ins : InsertOperation} :
    .insert ins ∈ snapshotOps nodes ↔ ins ∈ nodes.map Node.toInsert := by
  simp [snapshotOps, Node.tombstone]

theorem delete_mem_snapshotOps {nodes : List Node} {del : DeleteOperation} :
    .delete del ∈ snapshotOps nodes ↔
      ∃ n ∈ nodes, n.id = del.target ∧ n.deletedBy = some del.id := by
  obtain ⟨id, target⟩ := del
  simp only [snapshotOps, List.mem_append, List.mem_map, reduceCtorEq, and_false, exists_false,
    false_or, List.mem_filterMap, Node.tombstone, Option.map_eq_some_iff,
    Operation.delete.injEq, DeleteOperation.mk.injEq]
  constructor
  · rintro ⟨n, member, d, dot, rfl, named⟩
    exact ⟨n, member, named, dot⟩
  · rintro ⟨n, member, named, dot⟩
    exact ⟨n, member, id, dot, rfl, named⟩

theorem undelete_not_mem_snapshotOps {nodes : List Node} {und : UndeleteOperation} :
    .undelete und ∉ snapshotOps nodes := by
  simp [snapshotOps, Node.tombstone]

namespace Engine

/-- Replaying nodes with consistent flags is offering their operations. -/
theorem replaySnapshotNodesInto_eq (e : Engine) {nodes : List Node}
    (flags : ∀ n ∈ nodes, n.deleted = n.deletedBy.isSome) :
    e.replaySnapshotNodesInto nodes = e.applyAll (snapshotOps nodes) := by
  have deletes : ∀ (e : Engine) (nodes : List Node),
      (∀ n ∈ nodes, n.deleted = n.deletedBy.isSome) →
        e.replayDeletes nodes = e.applyAll (nodes.filterMap Node.tombstone) := by
    intro e nodes flags
    induction nodes generalizing e with
    | nil => rfl
    | cons n nodes ih =>
        have ih := fun e => ih e fun m member => flags m (List.mem_cons_of_mem _ member)
        have flag := flags n List.mem_cons_self
        cases dot : n.deletedBy with
        | none =>
            rw [dot] at flag
            simp [replayDeletes, Node.tombstone, dot, flag, ih]
        | some d =>
            rw [dot] at flag
            simp [replayDeletes, Node.tombstone, dot, flag, ih]
  have inserts : ∀ (e : Engine) (nodes : List Node) (later : List Operation),
      (do
        let e ← e.replayInserts nodes
        e.applyAll later) =
        e.applyAll (nodes.map (fun n => .insert n.toInsert) ++ later) := by
    intro e nodes later
    induction nodes generalizing e with
    | nil => rfl
    | cons n nodes ih =>
        simp only [replayInserts, List.map_cons, List.cons_append, applyAll_cons]
        cases delivered : e.applyRemote (.insert n.toInsert) none with
        | error reason => rfl
        | ok outcome => exact ih outcome.2
  rw [snapshotOps, ← inserts]
  simp only [replaySnapshotNodesInto, deletes _ nodes flags]

end Engine

open Engine

/-- Replaying nodes whose operations can be ordered causally applies exactly these operations. -/
theorem replay_spec (replicaId : Nat) {nodes : List Node} {ops : List Operation}
    (flags : ∀ n ∈ nodes, n.deleted = n.deletedBy.isSome) (causal : Causal ops)
    (distinct : DistinctIds ops) (same : ∀ op, op ∈ ops ↔ op ∈ snapshotOps nodes) :
    ∃ e history, seedEngineFromSnapshot replicaId nodes = .ok e ∧ Built e history ∧
      e.pending = [] ∧ e.replicaId = replicaId ∧ ∀ op, op ∈ history ↔ op ∈ snapshotOps nodes := by
  obtain ⟨e, history, seeded, absorbed, settled⟩ :=
    (built_new replicaId).applyAll_spec (snapshotOps nodes)
  have settled := settled (settled_new replicaId)
  have built : Built e history := absorbed.built
  have inside : ∀ op ∈ history, op ∈ ops := fun op member =>
    (same op).mpr (absorbed.appliedFrom op member)
  have offered : ∀ op ∈ ops, op ∈ e.pending ∨ e.hasApplied op.id = true := fun op member =>
    absorbed.complete op ((same op).mp member)
  refine ⟨e, history, ?_, built, ?_, absorbed.replicaId, fun op => ⟨fun member => ?_, fun member =>
    ?_⟩⟩
  · rw [seedEngineFromSnapshot, replaySnapshotNodesInto_eq _ flags]
    exact seeded
  · exact built.pending_eq_nil settled causal distinct inside
      (fun op member => (same op).mpr (absorbed.pendingFrom.subset member)) offered
  · exact (same op).mp (inside op member)
  · exact built.mem_history_of_offered settled causal distinct inside offered op
      ((same op).mpr member)

/-- With one delete per node and no undelete, the attribution is that delete. -/
theorem dotOf_eq_some_iff {history : List Operation} {target : Identifier}
    (single : ∀ d d', Deletes history target d → Deletes history target d' → d = d')
    (kept : ∀ u, ¬ Undeletes history target u) (d : Identifier) :
    dotOf history target = some d ↔ Deletes history target d := by
  refine ⟨deletes_of_dotOf, fun deleted => dotOf_eq_of_unchallenged ⟨⟨fun d' other => ?_,
    fun u revived => absurd revived (kept u)⟩, deleted⟩⟩
  rw [single d' d other deleted]
  exact d.lt_irrefl

/-- What a rebuilt engine remembers of a history. -/
structure Rebuilt (history rebuilt : List Operation) : Prop where
  inserts : ∀ ins, .insert ins ∈ rebuilt ↔ .insert ins ∈ history
  deletes : ∀ target d, Deletes rebuilt target d ↔ dotOf history target = some d
  undeletes : ∀ target u, ¬ Undeletes rebuilt target u

theorem Rebuilt.dotOf_eq {history rebuilt : List Operation} (spec : Rebuilt history rebuilt)
    (target : Identifier) : dotOf rebuilt target = dotOf history target := by
  refine Option.ext fun d => ?_
  rw [dotOf_eq_some_iff (fun a b deleted deleted' => ?_) (spec.undeletes target), spec.deletes]
  rw [spec.deletes] at deleted deleted'
  exact Option.some.inj (deleted.symm.trans deleted')

theorem Rebuilt.subset {history rebuilt : List Operation} (spec : Rebuilt history rebuilt) :
    ∀ op ∈ rebuilt, op ∈ history := by
  rintro (ins | ⟨d, target⟩ | ⟨u, target⟩) member
  · exact (spec.inserts ins).mp member
  · exact deletes_of_dotOf ((spec.deletes target d).mp member)
  · exact absurd member (spec.undeletes target u)

/-! ### The nodes of an engine -/

/-- The inserts of a history, in its order. -/
def insertsOf (history : List Operation) : List Operation :=
  history.filter fun op => match op with
    | .insert _ => true
    | _ => false

theorem insert_mem_insertsOf {history : List Operation} {ins : InsertOperation} :
    .insert ins ∈ insertsOf history ↔ .insert ins ∈ history := by
  simp [insertsOf]

theorem Causal.insertsOf {history : List Operation} (causal : Causal history) :
    Causal (insertsOf history) :=
  causal.filter _ fun _ _ _ _ _ _ => rfl

/-- Deletes and undeletes of inserted nodes may follow in any order. -/
theorem Causal.append_of_met {history later : List Operation} (causal : Causal history)
    (met : ∀ op ∈ later, DependencyMet history op) : Causal (history ++ later) := by
  induction later using List.reverseRecOn with
  | nil => rwa [List.append_nil]
  | append_singleton later op ih =>
      rw [← List.append_assoc]
      refine (ih fun x member => met x (List.mem_append_left _ member)).snoc ?_
      exact (met op (by simp)).append _

namespace Built

variable {e : Engine} {history : List Operation}

/-- The operations that the engine's own nodes are replayed as are operations of its history. -/
theorem mem_history_of_snapshotOps (built : Built e history) :
    ∀ op ∈ snapshotOps e.nodes, op ∈ history := by
  rw [built.nodes_eq]
  rintro (ins | ⟨d, target⟩ | und) member
  · exact (built.inserts ins).mp (insert_mem_snapshotOps.mp member)
  · obtain ⟨n, inside, rfl, dot⟩ := delete_mem_snapshotOps.mp member
    rw [built.deletedBy n inside] at dot
    exact deletes_of_dotOf dot
  · exact absurd member undelete_not_mem_snapshotOps

/-- An attribution belongs to a node that is there. -/
theorem tombstone_iff (built : Built e history) (target d : Identifier) :
    Operation.delete ⟨d, target⟩ ∈ snapshotOps e.nodes ↔ dotOf history target = some d := by
  rw [delete_mem_snapshotOps, built.nodes_eq]
  constructor
  · rintro ⟨n, member, rfl, dot⟩
    rw [← dot, built.deletedBy n member]
  · intro dot
    obtain ⟨ins, inserted, rfl⟩ := built.causal.met (deletes_of_dotOf dot) target rfl
    obtain ⟨n, member, rfl⟩ := List.mem_map.mp ((built.inserts ins).mpr inserted)
    exact ⟨n, member, rfl, (built.deletedBy n member).trans dot⟩

/-- Rebuilding from an engine's nodes keeps the inserts and the attributions. -/
theorem rebuild_spec (built : Built e history) (replicaId : Nat) :
    ∃ e' rebuilt, seedEngineFromSnapshot replicaId e.nodes = .ok e' ∧ Built e' rebuilt ∧
      e'.pending = [] ∧ e'.replicaId = replicaId ∧ Rebuilt history rebuilt := by
  have flags : ∀ n ∈ e.nodes, n.deleted = n.deletedBy.isSome := fun n member =>
    built.deleted n (by rwa [built.nodes_eq] at member)
  have inserts : ∀ ins : InsertOperation, .insert ins ∈ snapshotOps e.nodes ↔
      .insert ins ∈ history := fun ins => by
    rw [insert_mem_snapshotOps, built.nodes_eq, built.inserts]
  -- the inserts in the order of the history, then the tombstones
  have same : ∀ op, op ∈ insertsOf history ++ e.nodes.filterMap Node.tombstone ↔
      op ∈ snapshotOps e.nodes := by
    intro op
    cases op with
    | insert ins => simp [inserts, insert_mem_insertsOf, Node.tombstone]
    | delete del => simp [snapshotOps, insertsOf]
    | undelete und => simp [snapshotOps, insertsOf]
  have causal : Causal (insertsOf history ++ e.nodes.filterMap Node.tombstone) := by
    refine built.causal.insertsOf.append_of_met fun op member d named => ?_
    obtain ⟨ins, inserted, id⟩ := built.causal.met (built.mem_history_of_snapshotOps op
      (List.mem_append_right _ member)) d named
    exact ⟨ins, insert_mem_insertsOf.mpr inserted, id⟩
  have distinct : DistinctIds (insertsOf history ++ e.nodes.filterMap Node.tombstone) :=
    (DistinctIds.of_nodup built.nodup).subset fun op member =>
      built.mem_history_of_snapshotOps op ((same op).mp member)
  obtain ⟨e', rebuilt, seeded, built', empty, sameReplica, members⟩ :=
    replay_spec replicaId flags causal distinct same
  refine ⟨e', rebuilt, seeded, built', empty, sameReplica, fun ins => ?_, fun target d => ?_,
    fun target u revived => ?_⟩
  · rw [members, inserts]
  · rw [Deletes, members, built.tombstone_iff]
  · exact undelete_not_mem_snapshotOps ((members _).mp revived)

end Built

/-- Two engines with the same inserts and the same attributions show the same nodes. -/
theorem nodes_eq_of_history {e e' : Engine} {first second : List Operation} (built : Built e first)
    (built' : Built e' second) (apart : Network.SiblingsApart first)
    (inserts : ∀ ins, .insert ins ∈ first ↔ .insert ins ∈ second)
    (dots : ∀ target, dotOf first target = dotOf second target) : e.nodes = e'.nodes := by
  have skeleton : e.nodes.map Node.toInsert = e'.nodes.map Node.toInsert := by
    rw [built.nodes_eq, built'.nodes_eq]
    refine FugueTree.skeleton_eq built.wf built'.wf (fun a ha b hb => ?_) fun ins => ?_
    · exact apart a b ((built.inserts a).mp ha) ((built.inserts b).mp hb)
    · rw [built.inserts, built'.inserts, inserts]
  exact nodes_eq_of_skeleton_eq skeleton (agree_of_dots built built' skeleton dots).flags

/-! ### The engine of a snapshot -/

section Snapshot

variable {e : Engine} {history : List Operation} {nodes : List Node}

/-- In an engine that applied what nodes are replayed as, they carry their attributions. -/
theorem dotOf_of_snapshotOps (members : ∀ op, op ∈ history ↔ op ∈ snapshotOps nodes)
    (nodup : (nodes.map Node.id).Nodup) {n : Node} (member : n ∈ nodes) :
    dotOf history n.id = n.deletedBy := by
  have named : ∀ d, Deletes history n.id d ↔ n.deletedBy = some d := fun d => by
    rw [Deletes, members, delete_mem_snapshotOps]
    constructor
    · rintro ⟨m, inside, same, dot⟩
      rwa [← List.inj_on_of_nodup_map nodup inside member same]
    · exact fun dot => ⟨n, member, rfl, dot⟩
  refine Option.ext fun d => ?_
  rw [dotOf_eq_some_iff (fun a b first second => ?_)
    (fun u revived => undelete_not_mem_snapshotOps ((members _).mp revived)), named]
  rw [named] at first second
  exact Option.some.inj (first.symm.trans second)

/-- Such an engine has these nodes, in some order. -/
theorem Built.mem_nodes_of_snapshotOps (built : Built e history)
    (members : ∀ op, op ∈ history ↔ op ∈ snapshotOps nodes) (nodup : (nodes.map Node.id).Nodup)
    (flags : ∀ n ∈ nodes, n.deleted = n.deletedBy.isSome) (x : Node) :
    x ∈ e.tree.nodes ↔ x ∈ nodes := by
  have same : ∀ {n m : Node}, n ∈ e.tree.nodes → m ∈ nodes → m.toInsert = n.toInsert → n = m := by
    intro n m inside there skeleton
    have id : m.id = n.id := congrArg InsertOperation.id skeleton
    have dot : n.deletedBy = m.deletedBy := by
      rw [built.deletedBy n inside, ← id, dotOf_of_snapshotOps members nodup there]
    have flag : n.deleted = m.deleted := by
      rw [built.deleted n inside, flags m there, dot]
    cases n
    cases m
    simp_all [Node.toInsert]
  constructor
  · intro inside
    have inserted := (built.inserts x.toInsert).mp (List.mem_map_of_mem inside)
    obtain ⟨m, there, skeleton⟩ := List.mem_map.mp
      (insert_mem_snapshotOps.mp ((members _).mp inserted))
    rw [same inside there skeleton]
    exact there
  · intro there
    have inserted := (members (.insert x.toInsert)).mpr
      (insert_mem_snapshotOps.mpr (List.mem_map_of_mem there))
    obtain ⟨n, inside, skeleton⟩ := List.mem_map.mp ((built.inserts x.toInsert).mpr inserted)
    rw [← same inside there skeleton.symm]
    exact inside

end Snapshot

/-! ### Any nodes -/

namespace Engine.Sound

variable {e e' : Engine}

theorem replayInserts_spec (sound : e.Sound) {nodes : List Node}
    (replayed : e.replayInserts nodes = .ok e') : Advanced e e' := by
  induction nodes generalizing e with
  | nil =>
      obtain rfl := Except.ok.inj replayed
      exact sound.advanced e.pending e.deleteContext
  | cons node nodes ih =>
      obtain ⟨⟨buffered, e₁⟩, applied, rest⟩ := Throwing.ok_of_bind replayed
      obtain ⟨buffered', e₂, applied', advanced, -⟩ :=
        sound.applyRemote_spec (.insert node.toInsert) none
      obtain ⟨-, rfl⟩ := Prod.mk.inj (Except.ok.inj (applied'.symm.trans applied))
      exact advanced.trans (ih advanced.sound rest)

theorem replayDeletes_spec (sound : e.Sound) {nodes : List Node}
    (replayed : e.replayDeletes nodes = .ok e') : Advanced e e' := by
  induction nodes generalizing e with
  | nil =>
      obtain rfl := Except.ok.inj replayed
      exact sound.advanced e.pending e.deleteContext
  | cons node nodes ih =>
      rw [replayDeletes] at replayed
      split_ifs at replayed with deleted
      · split at replayed
        · cases replayed
        · rename_i deletedBy dot
          obtain ⟨⟨buffered, e₁⟩, applied, rest⟩ := Throwing.ok_of_bind replayed
          obtain ⟨buffered', e₂, applied', advanced, -⟩ :=
            sound.applyRemote_spec (.delete ⟨deletedBy, node.id⟩) none
          obtain ⟨-, rfl⟩ := Prod.mk.inj (Except.ok.inj (applied'.symm.trans applied))
          exact advanced.trans (ih advanced.sound rest)
      · exact ih sound replayed

/-- A sound engine stays sound whatever nodes are replayed into it. -/
theorem replaySnapshotNodesInto_spec (sound : e.Sound) {nodes : List Node}
    (replayed : e.replaySnapshotNodesInto nodes = .ok e') : Advanced e e' := by
  obtain ⟨e₁, inserted, deleted⟩ := Throwing.ok_of_bind replayed
  have first := sound.replayInserts_spec inserted
  exact first.trans (first.sound.replayDeletes_spec deleted)

end Engine.Sound

end ConfluenceEditor
