/-
Replicas that edit, undo, redo and exchange operations.

A network has one engine for every replica id, the list of all operations issued so far, and for
every replica the operations it minted or was handed (`received`). A command is one local edit, one
undo or redo, or the delivery of an issued operation to a replica; deliveries may happen in any
order and repeatedly. `Network.Invariant` is what every reachable network satisfies
(`invariant_of_reachable`): each engine is built from operations it received, identifiers are
unique, and no replica inserts twice at one position.
-/

import ConfluenceEditor.Engine.LocalEdit
import ConfluenceEditor.Library.Run
import ConfluenceEditor.Library.Throwing

namespace ConfluenceEditor

open Engine

structure Network where
  replicas : Nat → Engine
  issued : List Operation
  received : Nat → List Operation

inductive Command where
  | localInsert (replica : Nat) (visibleIndex : Int) (value : Nat) (bind : Bool)
  | localDelete (replica : Nat) (visibleIndex : Int) (count : Nat)
  | undo (replica : Nat)
  | redo (replica : Nat)
  | deliver (replica : Nat) (op : Operation)
  deriving DecidableEq, Repr

namespace Network

/-- Every replica id has its own fresh engine. -/
def init : Network := ⟨Engine.new, [], fun _ => []⟩

/-- Replica `i` minted `ops`. -/
def issue (n : Network) (i : Nat) (e : Engine) (ops : List Operation) : Network where
  replicas := Function.update n.replicas i e
  issued := n.issued ++ ops
  received := Function.update n.received i (n.received i ++ ops)

/-- Replica `i` was handed `op`. -/
def receive (n : Network) (i : Nat) (e : Engine) (op : Operation) : Network where
  replicas := Function.update n.replicas i e
  issued := n.issued
  received := Function.update n.received i (n.received i ++ [op])

def step (n : Network) : Command → Except String Network
  | .localInsert i visibleIndex value bind => do
      let (op, e) ← (n.replicas i).localInsert visibleIndex value bind
      .ok (n.issue i e [.insert op])
  | .localDelete i visibleIndex count => do
      let (ops, e) ← (n.replicas i).localDelete visibleIndex count
      .ok (n.issue i e (ops.map .delete))
  | .undo i => do
      let (outcome, e) ← (n.replicas i).undo
      .ok (n.issue i e (Built.operations outcome))
  | .redo i => do
      let (outcome, e) ← (n.replicas i).redo
      .ok (n.issue i e (Built.operations outcome))
  | .deliver i op =>
      if op ∈ n.issued then do
        let (_, e) ← (n.replicas i).applyRemote op none
        .ok (n.receive i e op)
      else .error "only issued operations are in flight"

/-- The networks that some run reaches. -/
def Reachable (n : Network) : Prop := Run.Reaches step init n

/-! ### The invariant -/

/-- One replica: its engine is built from received operations, the others wait in its buffer, and
all its own operations are applied. -/
structure ReplicaInvariant (n : Network) (i : Nat) (history : List Operation) : Prop where
  built : Built (n.replicas i) history
  replicaId : (n.replicas i).replicaId = i
  known : ∀ op, op ∈ n.received i ↔ op ∈ history ∨ op ∈ (n.replicas i).pending
  flown : ∀ op ∈ n.received i, op ∈ n.issued
  own : ∀ op ∈ n.issued, op.id.r = i → op ∈ history

/-- No replica inserts twice under one parent on one side. -/
def SiblingsApart (issued : List Operation) : Prop :=
  ∀ a b : InsertOperation, .insert a ∈ issued → .insert b ∈ issued → a.parent = b.parent →
    a.side = b.side → a.id.r = b.id.r → a = b

structure Invariant (n : Network) : Prop where
  replica : ∀ i, ∃ history, n.ReplicaInvariant i history
  unique : (n.issued.map Operation.id).Nodup
  causal : Causal n.issued
  apart : SiblingsApart n.issued
  rootRight : ∀ a : InsertOperation, .insert a ∈ n.issued → a.parent = none → a.side = .R

theorem invariant_init : init.Invariant where
  replica i := ⟨[], built_new i, rfl, fun op => by simp [init, Engine.new],
    fun _ member => (nomatch member), fun _ member => (nomatch member)⟩
  unique := List.nodup_nil
  causal := .nil
  apart a b member := by cases member
  rootRight a member := by cases member

theorem eq_of_id_eq {issued : List Operation} (unique : (issued.map Operation.id).Nodup)
    {a b : Operation} (ha : a ∈ issued) (hb : b ∈ issued) (same : a.id = b.id) : a = b :=
  List.inj_on_of_nodup_map unique ha hb same

/-- Minting keeps the invariant when the minted inserts stand at free positions. -/
theorem Invariant.issue {n : Network} (invariant : n.Invariant) {i : Nat} {e : Engine}
    {history ops : List Operation} (replica : n.ReplicaInvariant i history)
    (minted : Minted (n.replicas i) e history ops)
    (free : ∀ a, .insert a ∈ ops → ops = [.insert a] ∧ (a.parent = none → a.side = .R) ∧
      ∀ m ∈ (n.replicas i).tree.nodes, ¬ (m.parent = a.parent ∧ m.side = a.side)) :
    (n.issue i e ops).Invariant := by
  have newId : ∀ op ∈ ops, ∀ old ∈ n.issued, old.id ≠ op.id := by
    intro op member old issued same
    obtain ⟨own, above⟩ := minted.fresh op member
    have inHistory := replica.own old issued (by rw [same, own, replica.replicaId])
    have := replica.built.clock old inHistory
    rw [same] at this
    omega
  have newInsert : ∀ a, .insert a ∈ ops → ∀ b, .insert b ∈ n.issued → b.parent = a.parent →
      b.side = a.side → b.id.r ≠ a.id.r := by
    intro a member b issued parent side same
    obtain ⟨-, -, unoccupied⟩ := free a member
    have own : b.id.r = i := by rw [same, ← replica.replicaId]; exact (minted.fresh _ member).1
    obtain ⟨m, inside, rfl⟩ := List.mem_map.mp
      ((replica.built.inserts b).mpr (replica.own _ issued own))
    exact unoccupied m inside ⟨parent, side⟩
  refine ⟨fun j => ?_, ?_, ?_, ?_, ?_⟩
  · by_cases same : j = i
    · subst same
      refine ⟨history ++ ops, ?_, ?_, fun op => ?_, fun op member => ?_, fun op member own => ?_⟩
      · simpa [Network.issue] using minted.built
      · simpa [Network.issue] using minted.replicaId.trans replica.replicaId
      · simp only [Network.issue, Function.update_self, List.mem_append, minted.pending,
          replica.known]
        tauto
      · simp only [Network.issue, Function.update_self, List.mem_append] at member ⊢
        exact member.imp_left (replica.flown op)
      · rcases List.mem_append.mp member with old | new
        · exact List.mem_append_left _ (replica.own op old own)
        · exact List.mem_append_right _ new
    · obtain ⟨other, inv⟩ := invariant.replica j
      refine ⟨other, ?_, ?_, fun op => ?_, fun op member => ?_, fun op member own => ?_⟩
      · simpa [Network.issue, same] using inv.built
      · simpa [Network.issue, same] using inv.replicaId
      · simpa [Network.issue, same] using inv.known op
      · simp only [Network.issue, ne_eq, same, not_false_eq_true, Function.update_of_ne] at member
        exact List.mem_append_left _ (inv.flown op member)
      · rcases List.mem_append.mp member with old | new
        · exact inv.own op old own
        · exact absurd (own.symm.trans ((minted.fresh op new).1.trans replica.replicaId)) same
  · simp only [Network.issue, List.map_append, List.nodup_append]
    refine ⟨invariant.unique, ?_, ?_⟩
    · have nodup := minted.built.nodup
      rw [List.map_append, List.nodup_append] at nodup
      exact nodup.2.1
    · rintro a inOld b inNew rfl
      obtain ⟨old, issued, rfl⟩ := List.mem_map.mp inOld
      obtain ⟨new, member, same⟩ := List.mem_map.mp inNew
      exact newId new member old issued same.symm
  · exact minted.built.causal.extend invariant.causal fun ins member =>
      replica.flown _ ((replica.known _).mpr (Or.inl member))
  · intro a b inA inB parent side replicaId
    rcases List.mem_append.mp inA with oldA | newA
    · rcases List.mem_append.mp inB with oldB | newB
      · exact invariant.apart a b oldA oldB parent side replicaId
      · exact absurd replicaId (newInsert b newB a oldA parent side)
    · rcases List.mem_append.mp inB with oldB | newB
      · exact absurd replicaId.symm (newInsert a newA b oldB parent.symm side.symm)
      · obtain ⟨single, -⟩ := free a newA
        rw [single, List.mem_singleton] at newB
        exact (Operation.insert.inj newB).symm
  · intro a member orphan
    rcases List.mem_append.mp member with old | new
    · exact invariant.rootRight a old orphan
    · exact (free a new).2.1 orphan

/-- A delivery keeps the invariant. -/
theorem Invariant.receive {n : Network} (invariant : n.Invariant) {i : Nat} {e : Engine}
    {op : Operation} {buffered : Bool} (issued : op ∈ n.issued)
    (delivered : (n.replicas i).applyRemote op none = .ok (buffered, e)) :
    (n.receive i e op).Invariant := by
  refine ⟨fun j => ?_, invariant.unique, invariant.causal, invariant.apart, invariant.rootRight⟩
  by_cases same : j = i
  · subst same
    obtain ⟨history, replica⟩ := invariant.replica j
    obtain ⟨buffered', e', applied, done, absorbed, -⟩ := replica.built.applyRemote_spec op none
    obtain ⟨-, rfl⟩ := Prod.mk.inj (Except.ok.inj (done.symm.trans delivered))
    have offered : ∀ x ∈ (n.replicas j).pending ++ [op], x ∈ n.received j ++ [op] := by
      intro x member
      rcases List.mem_append.mp member with inside | last
      · exact List.mem_append_left _ ((replica.known x).mpr (Or.inr inside))
      · exact List.mem_append_right _ last
    have flown : ∀ x ∈ n.received j ++ [op], x ∈ n.issued := by
      intro x member
      rcases List.mem_append.mp member with old | last
      · exact replica.flown x old
      · rwa [List.mem_singleton.mp last]
    refine ⟨history ++ applied, ?_, ?_, fun x => ?_, fun x member => ?_, fun x member own => ?_⟩
    · simpa [Network.receive] using absorbed.built
    · simpa [Network.receive] using absorbed.replicaId.trans replica.replicaId
    · simp only [Network.receive, Function.update_self]
      constructor
      · intro member
        have settle : x ∈ (n.replicas j).pending ++ [op] →
            x ∈ history ++ applied ∨ x ∈ e'.pending := by
          intro inside
          rcases absorbed.complete x inside with waiting | done
          · exact Or.inr waiting
          · -- the identifier is applied, and issued identifiers are unique
            obtain ⟨y, inY, sameId⟩ := absorbed.built.hasApplied_iff.mp done
            have issuedY : y ∈ n.issued := by
              rcases List.mem_append.mp inY with old | new
              · exact replica.flown y ((replica.known y).mpr (Or.inl old))
              · exact flown y (offered y (absorbed.appliedFrom y new))
            have issuedX := flown x (offered x inside)
            exact Or.inl (eq_of_id_eq invariant.unique issuedY issuedX sameId ▸ inY)
        rcases List.mem_append.mp member with old | last
        · rcases (replica.known x).mp old with inHistory | waiting
          · exact Or.inl (List.mem_append_left _ inHistory)
          · exact settle (List.mem_append_left _ waiting)
        · exact settle (List.mem_append_right _ last)
      · rintro (inHistory | waiting)
        · rcases List.mem_append.mp inHistory with old | new
          · exact List.mem_append_left _ ((replica.known x).mpr (Or.inl old))
          · exact offered x (absorbed.appliedFrom x new)
        · exact offered x (absorbed.pendingFrom.subset waiting)
    · simp only [Network.receive, Function.update_self] at member
      exact flown x member
    · exact List.mem_append_left _ (replica.own x member own)
  · obtain ⟨other, inv⟩ := invariant.replica j
    refine ⟨other, ?_, ?_, fun x => ?_, fun x member => ?_, inv.own⟩
    · simpa [Network.receive, same] using inv.built
    · simpa [Network.receive, same] using inv.replicaId
    · simpa [Network.receive, same] using inv.known x
    · simp only [Network.receive, ne_eq, same, not_false_eq_true, Function.update_of_ne] at member
      exact inv.flown x member

theorem not_mem_insert_map_delete (ops : List DeleteOperation) (a : InsertOperation) :
    .insert a ∉ ops.map Operation.delete := by simp

/-- Every command keeps the invariant. -/
theorem Invariant.step {n n' : Network} (invariant : n.Invariant) {command : Command}
    (moved : n.step command = .ok n') : n'.Invariant := by
  cases command with
  | localInsert i visibleIndex value binds =>
      obtain ⟨history, replica⟩ := invariant.replica i
      obtain ⟨⟨op, e⟩, inserted, done⟩ := Throwing.ok_of_bind moved
      obtain rfl := Except.ok.inj done
      obtain ⟨k, rfl, inside⟩ := Built.localInsert_inside replica.built.wf inserted
      obtain ⟨op', e', before, after, edited, minted, -, -, position, -⟩ :=
        replica.built.localInsert_spec k inside value binds
      obtain ⟨rfl, rfl⟩ := Prod.mk.inj (Except.ok.inj (edited.symm.trans inserted))
      refine invariant.issue replica minted fun a member => ?_
      obtain rfl := Operation.insert.inj (List.mem_singleton.mp member)
      exact ⟨rfl, position.rootRight, position.free⟩
  | localDelete i visibleIndex count =>
      obtain ⟨history, replica⟩ := invariant.replica i
      obtain ⟨ops, e, edited, minted, -⟩ := replica.built.localDelete_spec visibleIndex count
      simp only [Network.step, edited, bind, Except.bind] at moved
      obtain rfl := Except.ok.inj moved
      exact invariant.issue replica minted fun a member =>
        absurd member (not_mem_insert_map_delete ops a)
  | undo i =>
      obtain ⟨history, replica⟩ := invariant.replica i
      obtain ⟨⟨outcome, e⟩, undone, done⟩ := Throwing.ok_of_bind moved
      obtain rfl := Except.ok.inj done
      obtain ⟨minted, noInsert⟩ := replica.built.undo_spec undone
      exact invariant.issue replica minted fun a member => absurd rfl (noInsert _ member a)
  | redo i =>
      obtain ⟨history, replica⟩ := invariant.replica i
      obtain ⟨⟨outcome, e⟩, redone, done⟩ := Throwing.ok_of_bind moved
      obtain rfl := Except.ok.inj done
      obtain ⟨minted, noInsert⟩ := replica.built.redo_spec redone
      exact invariant.issue replica minted fun a member => absurd rfl (noInsert _ member a)
  | deliver i op =>
      simp only [Network.step] at moved
      split_ifs at moved with issued
      obtain ⟨⟨buffered, e⟩, delivered, done⟩ := Throwing.ok_of_bind moved
      obtain rfl := Except.ok.inj done
      exact invariant.receive issued delivered

/-- A command touches one replica. -/
theorem step_others {n n' : Network} {command : Command} (moved : n.step command = .ok n') :
    ∃ i, ∀ j, j ≠ i → n'.received j = n.received j := by
  have ofIssue : ∀ (i : Nat) (e : Engine) (ops : List Operation), ∃ k, ∀ j, j ≠ k →
      (n.issue i e ops).received j = n.received j :=
    fun i e ops => ⟨i, fun j ne => by simp [Network.issue, ne]⟩
  cases command with
  | localInsert i visibleIndex value binds =>
      obtain ⟨result, -, done⟩ := Throwing.ok_of_bind moved
      obtain rfl := Except.ok.inj done
      exact ofIssue i result.2 _
  | localDelete i visibleIndex count =>
      obtain ⟨result, -, done⟩ := Throwing.ok_of_bind moved
      obtain rfl := Except.ok.inj done
      exact ofIssue i result.2 _
  | undo i =>
      obtain ⟨result, -, done⟩ := Throwing.ok_of_bind moved
      obtain rfl := Except.ok.inj done
      exact ofIssue i result.2 _
  | redo i =>
      obtain ⟨result, -, done⟩ := Throwing.ok_of_bind moved
      obtain rfl := Except.ok.inj done
      exact ofIssue i result.2 _
  | deliver i op =>
      simp only [Network.step] at moved
      split_ifs at moved with issued
      obtain ⟨result, -, done⟩ := Throwing.ok_of_bind moved
      obtain rfl := Except.ok.inj done
      exact ⟨i, fun j ne => by simp [Network.receive, ne]⟩

theorem invariant_of_reachable {n : Network} (reachable : n.Reachable) : n.Invariant :=
  reachable.invariant invariant_init fun _ _ _ invariant moved => invariant.step moved

end Network

end ConfluenceEditor
