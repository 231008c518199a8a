/-
Structural convergence.

A well-formed tree is determined by its set of inserts as soon as no two of them share a parent, a
side and a replica (`FugueTree.skeleton_eq`): the sibling order then never ties. Reachable networks
have that property, so two replicas that received the same operations and buffer nothing hold the
same ordered list of nodes, up to tombstones (`Network.structure_converges`).
-/

import ConfluenceEditor.Replication.Network

namespace ConfluenceEditor

open SidedForest SidedForest.Forest

/-- Two nodes of a list of inserts never tie in the sibling order. -/
def Apart (inserts : List InsertOperation) : Prop :=
  ∀ a ∈ inserts, ∀ b ∈ inserts, a.parent = b.parent → a.side = b.side → a.id.r = b.id.r → a = b

namespace FugueTree

variable {t t' : FugueTree}

/-- The rows of a well-formed tree, read as inserts. -/
theorem WF.insertRows (wf : t.WF) : Rows InsertOperation.id InsertOperation.parent
    InsertOperation.side InsertOperation.siblingLE
    ((t.leftChildren.map TreeNode.toPublicNode).map Node.toInsert)
    ((t.rightChildren.map TreeNode.toPublicNode).map Node.toInsert) :=
  (Rows.map_iff Node.toInsert).mpr wf.rows

theorem inorder_insert (t : FugueTree) :
    ((t.leftChildren.map TreeNode.toPublicNode).map Node.toInsert).inorder ++
      ((t.rightChildren.map TreeNode.toPublicNode).map Node.toInsert).inorder =
        t.nodes.map Node.toInsert := by
  rw [inorder_map Node.toInsert, inorder_map Node.toInsert, ← List.map_append, inorder_public]

/-- The same inserts give the same ordered list of nodes. -/
theorem skeleton_eq (wf : t.WF) (wf' : t'.WF) (apart : Apart (t.nodes.map Node.toInsert))
    (same : ∀ ins, ins ∈ t.nodes.map Node.toInsert ↔ ins ∈ t'.nodes.map Node.toInsert) :
    t.nodes.map Node.toInsert = t'.nodes.map Node.toInsert := by
  have separated := wf.insertRows.eq_of_mem_iff wf'.insertRows
    (by
      rw [inorder_insert]
      intro a ha b hb parent side before after
      exact apart a ha b hb parent side (InsertOperation.r_eq_of_siblingLE before after))
    (by rw [inorder_insert, inorder_insert]; exact same)
  rw [← inorder_insert, ← inorder_insert, separated.1, separated.2]

end FugueTree

/-- A node is its insert and its two flags. -/
theorem Node.eq_of_toInsert_eq {m n : Node} (insert : m.toInsert = n.toInsert)
    (deleted : m.deleted = n.deleted) (deletedBy : m.deletedBy = n.deletedBy) : m = n := by
  obtain ⟨id, value, parent, side, bind, del, by'⟩ := m
  obtain ⟨id', value', parent', side', bind', del', by''⟩ := n
  simp only [Node.toInsert, InsertOperation.mk.injEq] at insert
  simp_all

/-- Two lists of nodes with the same inserts, in which equal identifiers have equal flags. -/
theorem nodes_eq_of_skeleton_eq {l l' : List Node}
    (skeleton : l.map Node.toInsert = l'.map Node.toInsert)
    (flags : ∀ m ∈ l, ∀ n ∈ l', m.id = n.id → m.deleted = n.deleted ∧ m.deletedBy = n.deletedBy) :
    l = l' := by
  have length : l.length = l'.length := by simpa using congrArg List.length skeleton
  refine List.ext_getElem length fun k inL inL' => ?_
  have insert : l[k].toInsert = l'[k].toInsert := by
    have at? := congrArg (·[k]?) skeleton
    simpa [inL, inL'] using at?
  obtain ⟨deleted, deletedBy⟩ := flags l[k] (List.getElem_mem inL) l'[k] (List.getElem_mem inL')
    (congrArg InsertOperation.id insert)
  exact Node.eq_of_toInsert_eq insert deleted deletedBy

namespace Network

variable {n : Network}

/-- A replica that buffers nothing has applied exactly what it received. -/
theorem ReplicaInvariant.mem_history {i : Nat} {history : List Operation}
    (replica : n.ReplicaInvariant i history) (empty : (n.replicas i).pending = [])
    (op : Operation) : op ∈ history ↔ op ∈ n.received i := by
  rw [replica.known, empty]
  simp

theorem ReplicaInvariant.apart {i : Nat} {history : List Operation}
    (replica : n.ReplicaInvariant i history) (invariant : n.Invariant) :
    Apart ((n.replicas i).tree.nodes.map Node.toInsert) := by
  have issued : ∀ a ∈ (n.replicas i).tree.nodes.map Node.toInsert, .insert a ∈ n.issued :=
    fun a member => replica.flown _ ((replica.known _).mpr
      (Or.inl ((replica.built.inserts a).mp member)))
  exact fun a ha b hb => invariant.apart a b (issued a ha) (issued b hb)

theorem skeleton_converges (invariant : n.Invariant) {i j : Nat} {first second : List Operation}
    (replica : n.ReplicaInvariant i first) (replica' : n.ReplicaInvariant j second)
    (same : ∀ op, op ∈ first ↔ op ∈ second) :
    (n.replicas i).nodes.map Node.toInsert = (n.replicas j).nodes.map Node.toInsert := by
  rw [replica.built.nodes_eq, replica'.built.nodes_eq]
  refine FugueTree.skeleton_eq replica.built.wf replica'.built.wf (replica.apart invariant)
    fun ins => ?_
  rw [replica.built.inserts, replica'.built.inserts, same]

/-- In every run, two replicas that received the same operations and buffer nothing have the same
ordered list of nodes. No replica inserts twice at one position, so siblings never tie. -/
theorem structure_converges (reachable : n.Reachable) :
    (∀ i j, (∀ op, op ∈ n.received i ↔ op ∈ n.received j) → (n.replicas i).pending = [] →
      (n.replicas j).pending = [] →
      (n.replicas i).nodes.map Node.toInsert = (n.replicas j).nodes.map Node.toInsert) ∧
    ((n.issued.map Operation.id).Nodup ∧ SiblingsApart n.issued) ∧
    ∀ i, ∀ a ∈ (n.replicas i).nodes, ∀ b ∈ (n.replicas i).nodes, a.parent = b.parent →
      a.side = b.side → siblingRank a.bind a.id = siblingRank b.bind b.id → a = b := by
  have invariant := invariant_of_reachable reachable
  refine ⟨fun i j same emptyI emptyJ => ?_, ⟨invariant.unique, invariant.apart⟩,
    fun i a ha b hb parent side rank => ?_⟩
  · obtain ⟨first, replica⟩ := invariant.replica i
    obtain ⟨second, replica'⟩ := invariant.replica j
    exact skeleton_converges invariant replica replica' fun op => by
      rw [replica.mem_history emptyI, replica'.mem_history emptyJ, same]
  · obtain ⟨history, replica⟩ := invariant.replica i
    rw [replica.built.nodes_eq] at ha hb
    have insert : a.toInsert = b.toInsert := replica.apart invariant _ (List.mem_map_of_mem ha) _
      (List.mem_map_of_mem hb) parent side (Prod.mk.inj rank).2
    exact replica.built.wf.eq_of_id_eq ha hb (congrArg InsertOperation.id insert)

/-- Two replicas that typed one character each, at the same place, and exchanged them. -/
def exchange : List Command :=
  let insert (r : Nat) (value : Nat) : Operation := .insert ⟨⟨1, r⟩, value, none, .R, false⟩
  [.localInsert 1 0 97 false, .localInsert 2 0 98 false, .deliver 1 (insert 2 98),
    .deliver 2 (insert 1 97)]

theorem structure_converges_exchange : ∃ n, Run.run step init exchange = .ok n ∧
    (n.replicas 1).nodes.map Node.value = [97, 98] ∧
    (n.replicas 1).nodes.map Node.toInsert = (n.replicas 2).nodes.map Node.toInsert := by
  obtain ⟨n, ran, checked⟩ := Run.exists_of_ends (Run.run step init exchange)
    (fun n => decide ((n.replicas 1).nodes.map Node.value = [97, 98] ∧
      n.received 1 ⊆ n.received 2 ∧ n.received 2 ⊆ n.received 1 ∧
      (n.replicas 1).pending = [] ∧ (n.replicas 2).pending = [])) (by decide)
  obtain ⟨values, inner, outer, empty, empty'⟩ := of_decide_eq_true checked
  exact ⟨n, ran, values, (structure_converges ⟨exchange, ran⟩).1 1 2
    (fun op => ⟨fun member => inner member, fun member => outer member⟩) empty empty'⟩

end Network

end ConfluenceEditor
