/-
What a client does to its resident engine.

A call of one of the entry points edits the engine and touches it in no other way (`perform_path`),
and the replay of the offline queue is a list of edits too. So the engine grows by operations with
new identifiers, and every node that it gains is queued (`perform_grows`, `Reconciliation.replay_spec`).
-/

import ConfluenceEditor.Client.Reconcile
import ConfluenceEditor.Client.Recording
import ConfluenceEditor.Replication.Provenance

namespace ConfluenceEditor

open Engine Throwing

/-- Local edits of some kind lead from one engine to another, and mint these operations. -/
inductive Engine.Edits (kind : LocalEdit → Prop) (e : Engine) : List Operation → Engine → Prop
  | refl : Edits kind e [] e
  | tail {ops more : List Operation} {e₁ e' : Engine} {edit : LocalEdit} (first : Edits kind e ops e₁)
      (allowed : kind edit) (edited : e₁.edit edit = .ok (more, e')) : Edits kind e (ops ++ more) e'

theorem Engine.Edits.single {kind : LocalEdit → Prop} {e e' : Engine} {ops : List Operation}
    {edit : LocalEdit} (allowed : kind edit) (edited : e.edit edit = .ok (ops, e')) :
    Edits kind e ops e' :=
  Edits.tail .refl allowed edited

theorem Engine.Edits.head {kind : LocalEdit → Prop} {e e₁ e' : Engine} {ops more : List Operation}
    {edit : LocalEdit} (allowed : kind edit) (edited : e.edit edit = .ok (ops, e₁))
    (rest : Edits kind e₁ more e') : Edits kind e (ops ++ more) e' := by
  induction rest with
  | refl =>
      rw [List.append_nil]
      exact .single allowed edited
  | tail _ allowed' edited' ih =>
      rw [← List.append_assoc]
      exact .tail ih allowed' edited'

/-- A queue with operations in it that are old or new. -/
theorem mem_setEntry {entries : List Operation} {op x : Operation} (member : x ∈ setEntry entries op) :
    x ∈ entries ∨ x = op := by
  unfold setEntry at member
  split_ifs at member
  · obtain ⟨o, inside, rfl⟩ := List.mem_map.mp member
    split_ifs
    · exact Or.inr rfl
    · exact Or.inl inside
  · exact (List.mem_append.mp member).imp_right List.mem_singleton.mp

namespace SyncClient

/-- The edits that a call makes. -/
def edits : EditCall → LocalEdit → Prop
  | .localDelete _ _, .delete _ _ => True
  | .localDelete _ _, _ => False
  | _, _ => True

section Path

variable {c : SyncClient} {e : Engine} {kind : LocalEdit → Prop}

/-- The engine is `e`, and what is queued was queued in `c` or is in the list. -/
def Queues (c : SyncClient) (e : Engine) (ops : List Operation) (c' : SyncClient) : Prop :=
  c'.engine = some e ∧ ∀ op ∈ c'.unacked, op ∈ c.unacked ∨ op ∈ ops

theorem Queues.record {c' : SyncClient} {ops : List Operation} {op : Operation}
    (queues : Queues c e ops c') (member : op ∈ ops) : Queues c e ops (c'.record op) := by
  refine ⟨queues.1, fun x inside => ?_⟩
  rcases mem_setEntry inside with old | rfl
  · exact queues.2 x old
  · exact Or.inr member

theorem keeps_queues_sendFrame (ops frame : List Operation) :
    Keeps (Queues c e ops) (sendFrame frame) := by
  intro c' queues
  obtain ⟨engine, unacked⟩ := keeps_sendFrame c'.engine c'.unacked frame c' ⟨rfl, rfl⟩
  refine ⟨engine.trans queues.1, ?_⟩
  rw [unacked]
  exact queues.2

theorem keeps_queues_sendOperation {ops : List Operation} {op : Operation} (member : op ∈ ops) :
    Keeps (Queues c e ops) (do
      modify noteOperationAccepted
      sendOperation op) := by
  intro c' queues
  have recorded : Queues c e ops (c'.noteOperationAccepted.record op) :=
    Queues.record ⟨queues.1, queues.2⟩ member
  exact keeps_queues_sendFrame ops [op] _ recorded

/-- What an engine's method returns is set before anything can throw. -/
theorem path_of_edit {α β : Type} (resident : c.engine = some e) (outcome : Except String (α × Engine))
    (minted : α → List Operation) (rest : α × Engine → Method β)
    (edited : ∀ a e', outcome = .ok (a, e') →
      ∃ edit, kind edit ∧ e.edit edit = .ok (minted a, e'))
    (set : ∀ a e', outcome = .ok (a, e') →
      Queues c e' (minted a) (stateOf ((rest (a, e')).run c))) :
    ∃ e' ops, Edits kind e ops e' ∧
      Queues c e' ops (stateOf ((ofEngine outcome >>= rest).run c)) := by
  cases outcome with
  | error message =>
      rw [run_bind_of_error (run_ofEngine_error message c)]
      exact ⟨e, [], .refl, resident, fun op member => Or.inl member⟩
  | ok result =>
      obtain ⟨a, e'⟩ := result
      rw [run_bind_of_ok (run_ofEngine_ok (a, e') c)]
      obtain ⟨edit, allowed, edited⟩ := edited a e' rfl
      exact ⟨e', minted a, .single allowed edited, set a e' rfl⟩

/-- A call queues nothing while it mints a text. -/
theorem mintText_path (isClusterContinuing : Nat → Bool) (text : List Nat) {c : SyncClient}
    {e : Engine} (resident : c.engine = some e) (visibleIndex : Int) :
    ∃ e' ops, Edits (fun _ => True) e ops e' ∧
      Queues c e' [] (stateOf ((mintText isClusterContinuing e visibleIndex text).run c)) ∧
      ∀ inserts c', (mintText isClusterContinuing e visibleIndex text).run c = .ok inserts c' →
        ops = inserts.map .insert := by
  induction text generalizing c e visibleIndex with
  | nil =>
      refine ⟨e, [], .refl, ⟨resident, fun op member => Or.inl member⟩, fun inserts c' ran => ?_⟩
      obtain ⟨rfl, -⟩ := EStateM.Result.ok.inj ran
      rfl
  | cons codePoint text ih =>
      rw [mintText]
      cases inserted : e.localInsert visibleIndex codePoint (isClusterContinuing codePoint) with
      | error message =>
          rw [run_bind_of_error (run_ofEngine_error message c)]
          exact ⟨e, [], .refl, ⟨resident, fun op member => Or.inl member⟩, (by rintro _ _ ⟨⟩)⟩
      | ok result =>
          obtain ⟨op, e₁⟩ := result
          have edited : e.edit (.insert visibleIndex codePoint (isClusterContinuing codePoint)) =
              .ok ([.insert op], e₁) := by
            rw [Engine.edit, inserted]
            rfl
          obtain ⟨e', ops, path, queues, returned⟩ :=
            ih (c := (c.setEngine e₁).noteOperationAccepted) rfl (visibleIndex + 1)
          rw [run_bind_of_ok (run_ofEngine_ok (op, e₁) c), run_modify_bind, stateOf_bind_pure]
          refine ⟨e', .insert op :: ops, Edits.head trivial edited path, queues,
            fun inserts c' ran => ?_⟩
          cases minted : (mintText isClusterContinuing e₁ (visibleIndex + 1) text).run
              (c.setEngine e₁).noteOperationAccepted with
          | error message c₁ =>
              rw [run_bind_of_error minted] at ran
              cases ran
          | ok rest c₁ =>
              rw [run_bind_of_ok minted] at ran
              obtain ⟨rfl, -⟩ := EStateM.Result.ok.inj ran
              rw [returned rest c₁ minted]
              rfl

/-- A call edits the resident engine and queues what that minted, and does nothing else to them. -/
theorem perform_path (isClusterContinuing : Nat → Bool) (nowMs : Nat) (call : EditCall)
    (resident : c.engine = some e) :
    ∃ e' ops, Edits (edits call) e ops e' ∧
      Queues c e' ops (c.perform isClusterContinuing nowMs call) := by
  rcases openForEdit_cases c nowMs with ⟨e₁, same, -, opened⟩ | ⟨-, message, stopped⟩
  · obtain rfl := Option.some.inj (resident.symm.trans same)
    have start : ∀ (e' : Engine) (ops : List Operation), Queues c e' ops (c.setEngine e') :=
      fun e' ops => ⟨rfl, fun op member => Or.inl member⟩
    have reverses : ∀ (e' : Engine) (outcome : UndoOutcome),
        Queues c e' (Built.operations outcome)
          (stateOf ((sendOutcome outcome).run (c.setEngine e'))) := by
      intro e' outcome
      cases outcome with
      | applied op =>
          have sends : Keeps (Queues c e' [op]) (do
              modify noteOperationAccepted
              sendOperation op) := keeps_queues_sendOperation (List.mem_singleton.mpr rfl)
          have sent := sends (c.setEngine e') (start e' [op])
          rw [sendOutcome, run_modify_bind, stateOf_bind_pure]
          exact sent
      | empty => exact start e' []
      | unavailable => exact start e' []
    cases call with
    | localInsert visibleIndex value bind =>
        rw [perform, localInsert, run_bind_of_ok opened]
        refine path_of_edit resident _ (fun op => [.insert op]) _ (fun op e' inserted => ?_)
          fun op e' _ => ?_
        · exact ⟨.insert visibleIndex value _, trivial, by rw [Engine.edit, inserted]; rfl⟩
        · rw [run_modify_bind, stateOf_bind_pure]
          exact keeps_queues_sendOperation (List.mem_singleton.mpr rfl) (c.setEngine e') (start e' _)
    | localInsertText visibleIndex text =>
        rw [perform, localInsertText, run_bind_of_ok opened]
        obtain ⟨e', ops, path, queues, returned⟩ :=
          mintText_path isClusterContinuing text resident visibleIndex
        refine ⟨e', ops, path, ?_⟩
        cases minted : (mintText isClusterContinuing e visibleIndex text).run c with
        | error message c' =>
            rw [minted] at queues
            rw [run_bind_of_error minted]
            exact ⟨queues.1, fun op member => Or.inl ((queues.2 op member).resolve_right List.not_mem_nil)⟩
        | ok inserts c' =>
            rw [minted] at queues
            rw [run_bind_of_ok minted, returned inserts c' minted]
            refine Keeps.bind (keeps_forM inserts fun op member c₁ held => ?_) (fun _ => Keeps.bind
              (keeps_forM _ fun frame _ => keeps_queues_sendFrame _ _) fun _ => keeps_pure _ _) c'
              ⟨queues.1, fun op member => Or.inl ((queues.2 op member).resolve_right List.not_mem_nil)⟩
            exact Queues.record held (List.mem_map_of_mem member)
    | localDelete visibleIndex count =>
        rw [perform, localDelete, run_bind_of_ok opened]
        refine path_of_edit resident _ (fun ops => ops.map .delete) _ (fun ops e' deleted => ?_)
          fun ops e' _ => ?_
        · exact ⟨.delete visibleIndex count, trivial, by rw [Engine.edit, deleted]; rfl⟩
        · rw [run_modify_bind, stateOf_bind_pure]
          exact keeps_forM ops (fun op member =>
            keeps_queues_sendOperation (List.mem_map_of_mem member)) (c.setEngine e') (start e' _)
    | undo =>
        rw [perform, undo, run_bind_of_ok opened]
        refine path_of_edit resident _ Built.operations _ (fun outcome e' undone => ?_)
          fun outcome e' _ => ?_
        · exact ⟨.undo, trivial, by rw [Engine.edit, undone]; rfl⟩
        · rw [run_modify_bind]
          exact reverses e' outcome
    | redo =>
        rw [perform, redo, run_bind_of_ok opened]
        refine path_of_edit resident _ Built.operations _ (fun outcome e' redone => ?_)
          fun outcome e' _ => ?_
        · exact ⟨.redo, trivial, by rw [Engine.edit, redone]; rfl⟩
        · rw [run_modify_bind]
          exact reverses e' outcome
  · have halted : ∀ {β : Type} (f : Engine → Method β),
        Queues c e [] (stateOf ((openForEdit nowMs >>= f).run c)) := fun f => by
      rw [run_bind_of_error stopped]
      exact ⟨resident, fun op member => Or.inl member⟩
    refine ⟨e, [], .refl, ?_⟩
    cases call <;> exact halted _

end Path

end SyncClient

/-! ### Growth -/

namespace Engine

/-- The engine applied operations with new identifiers, and its new nodes are among `kept`. -/
structure Grows (e e' : Engine) (kept : List Identifier) : Prop where
  reachable : e'.Reachable
  replicaId : e'.replicaId = e.replicaId
  pending : e'.pending = e.pending
  clock : e.clock ≤ e'.clock
  applied : ∀ id ∈ e.applied, id ∈ e'.applied
  nodes : ∀ n ∈ e'.tree.nodes, (∃ m ∈ e.tree.nodes, m.toInsert = n.toInsert) ∨ n.id ∈ kept
  fresh : ∀ id ∈ kept, id.r = e.replicaId ∧ e.clock < id.c ∧ id.c ≤ e'.clock

variable {e e₁ e' : Engine} {kept : List Identifier}

theorem Grows.refl (reachable : e.Reachable) : Grows e e [] where
  reachable := reachable
  replicaId := rfl
  pending := rfl
  clock := le_refl _
  applied := fun _ known => known
  nodes := fun n member => Or.inl ⟨n, member, rfl⟩
  fresh := nofun

theorem Grows.trans {later : List Identifier} (first : Grows e e₁ kept)
    (second : Grows e₁ e' later) : Grows e e' (kept ++ later) where
  reachable := second.reachable
  replicaId := second.replicaId.trans first.replicaId
  pending := second.pending.trans first.pending
  clock := le_trans first.clock second.clock
  applied id known := second.applied id (first.applied id known)
  nodes n member := by
    rcases second.nodes n member with ⟨m, inside, same⟩ | new
    · have id : m.id = n.id := congrArg InsertOperation.id same
      rw [← same, ← id]
      exact (first.nodes m inside).imp_right (List.mem_append_left _)
    · exact Or.inr (List.mem_append_right _ new)
  fresh id member := by
    rcases List.mem_append.mp member with early | late
    · obtain ⟨own, above, behind⟩ := first.fresh id early
      exact ⟨own, above, le_trans behind second.clock⟩
    · obtain ⟨own, above, behind⟩ := second.fresh id late
      exact ⟨own.trans first.replicaId, lt_of_le_of_lt first.clock above, behind⟩

/-- Minting along a path of changes, when every identifier of a new node is kept. -/
theorem Mints.grows {ids : List Identifier} (mints : Mints e e' ids) (sub : kept ⊆ ids)
    (reachable : e'.Reachable)
    (nodes : ∀ n ∈ e'.tree.nodes, (∃ m ∈ e.tree.nodes, m.toInsert = n.toInsert) ∨ n.id ∈ kept) :
    Grows e e' kept where
  reachable := reachable
  replicaId := mints.replicaId
  pending := mints.pending
  clock := mints.clock
  applied id known := (mints.applied id).mpr (Or.inl known)
  nodes := nodes
  fresh id member := by
    obtain ⟨own, above⟩ := mints.fresh id (sub member)
    exact ⟨own, above, mints.sound.clock id ((mints.applied id).mpr (Or.inr (sub member)))⟩

theorem Mints.nodes {ids : List Identifier} (mints : Mints e e' ids) (moves : Moves e e')
    (sound : e.Sound) : ∀ n ∈ e'.tree.nodes,
      (∃ m ∈ e.tree.nodes, m.toInsert = n.toInsert) ∨ n.id ∈ ids := by
  intro n member
  refine (Moves.nodes moves sound n member).imp_right fun new => ?_
  exact ((mints.applied n.id).mp (mints.sound.known n member)).resolve_left new

theorem Edits.keeps {kind : LocalEdit → Prop} {ops : List Operation} (path : Edits kind e ops e')
    (reachable : e.Reachable) : e'.Reachable ∧ Moves e e' ∧
      ∀ op ∈ ops, ∀ d, op.dependency = some d → d ∈ e'.applied := by
  induction path with
  | refl => exact ⟨reachable, .refl, nofun⟩
  | tail _ _ edited ih =>
      obtain ⟨reachable₁, moves, based⟩ := ih
      have moves' := edit_moves reachable₁.sound edited
      refine ⟨reachable₁.edit edited, moves.trans moves', List.forall_mem_append.mpr
        ⟨fun op member d named => ?_, edit_dependency reachable₁.sound edited⟩⟩
      exact moves'.applied_mono (based op member d named)

/-- Deletions add no node. -/
theorem Edits.deletes {kind : LocalEdit → Prop} {ops : List Operation} (path : Edits kind e ops e')
    (reachable : e.Reachable)
    (deletes : ∀ edit, kind edit → ∃ visibleIndex count, edit = .delete visibleIndex count) :
    ∀ n ∈ e'.tree.nodes, ∃ m ∈ e.tree.nodes, m.toInsert = n.toInsert := by
  induction path with
  | refl => exact fun n member => ⟨n, member, rfl⟩
  | @tail ops more e₁ e₂ edit first allowed edited ih =>
      obtain ⟨visibleIndex, count, rfl⟩ := deletes edit allowed
      obtain ⟨⟨dels, e₃⟩, deleted, done⟩ := Throwing.ok_of_bind edited
      obtain ⟨-, rfl⟩ := Prod.mk.inj (Except.ok.inj done)
      have sound : Sound { e₁ with redoStack := [] } :=
        (Edits.keeps first reachable).1.sound.congr rfl rfl (le_refl _)
      intro n member
      obtain ⟨m, inside, same⟩ := (deleting_of_loop count deleted).nodes sound n member
      obtain ⟨m', inside', same'⟩ := ih m inside
      exact ⟨m', inside', same'.trans same⟩

end Engine

/-- A call changes nothing, or the engine grows and its new nodes are queued. -/
theorem SyncClient.perform_grows {c : SyncClient} (sound : c.Sound)
    (reachable : ∀ e, c.engine = some e → e.Reachable) (isClusterContinuing : Nat → Bool)
    (nowMs : Nat) (call : EditCall) :
    c.perform isClusterContinuing nowMs call = c ∨
      ∃ e e' kept, c.engine = some e ∧ (c.perform isClusterContinuing nowMs call).engine = some e' ∧
        Grows e e' kept ∧
        (∀ id, id ∈ (c.perform isClusterContinuing nowMs call).queued ↔
          id ∈ c.queued ∨ id ∈ kept) ∧
        ∀ op ∈ (c.perform isClusterContinuing nowMs call).unacked,
          op ∈ c.unacked ∨ ∀ d, op.dependency = some d → d ∈ e'.applied := by
  rcases perform_spec sound isClusterContinuing nowMs call with
    ⟨same, -⟩ | ⟨e, ids, kept, edited, whole⟩
  · exact Or.inl same
  · obtain ⟨e', after, mints⟩ := edited.minted
    obtain ⟨e₁, ops, path, after₁, queues⟩ :=
      perform_path isClusterContinuing nowMs call edited.before
    obtain rfl := Option.some.inj (after.symm.trans after₁)
    have start := reachable e edited.before
    obtain ⟨reachable', moves, based⟩ := Edits.keeps path start
    refine Or.inr ⟨e, e', kept, edited.before, after, mints.grows edited.subset reachable'
      (fun n member => ?_), edited.queued, fun op member => (queues op member).imp_right (based op)⟩
    by_cases cut : c.CutsOff nowMs call
    · -- only deletions can be cut off
      refine Or.inl (Edits.deletes path start (fun edit allowed => ?_) n member)
      cases call with
      | localDelete visibleIndex count =>
          cases edit with
          | delete at_ many => exact ⟨at_, many, rfl⟩
          | insert => cases allowed
          | undo => cases allowed
          | redo => cases allowed
      | localInsert => exact absurd cut id
      | localInsertText => exact absurd cut id
      | undo => exact absurd cut id
      | redo => exact absurd cut id
    · exact (mints.nodes moves start.sound n member).imp_right fun minted => whole.mpr cut minted

/-- What the replay of the queue adds to the engine and to the operations that it sends. -/
structure Reconciliation.Replays (s s' : Reconciliation) (ids : List Identifier) : Prop where
  grows : Grows s.engine s'.engine ids
  ids : s'.resent.map Operation.id = s.resent.map Operation.id ++ ids
  based : ∀ op ∈ s'.resent, op ∈ s.resent ∨ ∀ d, op.dependency = some d → d ∈ s'.engine.applied

/-- An edit whose operations are all sent. -/
theorem Reconciliation.replays_of_edit {s : Reconciliation} (reachable : s.engine.Reachable)
    {e' : Engine} {edit : LocalEdit} {ops : List Operation}
    (edited : s.engine.edit edit = .ok (ops, e')) (remap : Identifier → Option Identifier) :
    Replays s ⟨e', remap, s.resent ++ ops⟩ (ops.map Operation.id) where
  grows := by
    have mints := reachable.sound.edit_spec edited
    exact mints.grows (List.Subset.refl _) (reachable.edit edited)
      (mints.nodes (edit_moves reachable.sound edited) reachable.sound)
  ids := List.map_append
  based op member := (List.mem_append.mp member).imp_right
    (edit_dependency reachable.sound edited op)

theorem Reconciliation.replays_refl {s : Reconciliation} (reachable : s.engine.Reachable) :
    Replays s s [] where
  grows := .refl reachable
  ids := (List.append_nil _).symm
  based := fun _ member => Or.inl member

theorem Reconciliation.Replays.trans {s s₁ s' : Reconciliation} {ids ids' : List Identifier}
    (first : Replays s s₁ ids) (second : Replays s₁ s' ids') : Replays s s' (ids ++ ids') where
  grows := first.grows.trans second.grows
  ids := by rw [second.ids, first.ids, List.append_assoc]
  based op member := by
    rcases second.based op member with early | late
    · exact (first.based op early).imp_right fun based d named =>
        second.grows.applied d (based d named)
    · exact Or.inr late

/-- One queued operation is minted again. -/
theorem Reconciliation.replay_spec {s s' : Reconciliation} (reachable : s.engine.Reachable)
    {op : Operation} (replayed : s.replay op = .ok s') : ∃ ids, Replays s s' ids := by
  cases op with
  | undelete und =>
      obtain rfl := Except.ok.inj replayed
      exact ⟨[], replays_refl reachable⟩
  | insert ins =>
      obtain ⟨⟨newOp, e'⟩, inserted, done⟩ := Throwing.ok_of_bind replayed
      obtain rfl := Except.ok.inj done
      have edited : s.engine.edit (.insert (s.insertIndex ins) ins.value ins.bind) =
          .ok ([.insert newOp], e') := by
        rw [Engine.edit, inserted]
        rfl
      exact ⟨_, replays_of_edit reachable edited _⟩
  | delete del =>
      simp only [Reconciliation.replay] at replayed
      cases found : visibleIndexOfTarget s.engine (s.resolve del.target) with
      | none =>
          rw [found] at replayed
          obtain rfl := Except.ok.inj replayed
          exact ⟨[], replays_refl reachable⟩
      | some visibleIndex =>
          rw [found] at replayed
          obtain ⟨⟨newOps, e'⟩, deleted, done⟩ := Throwing.ok_of_bind replayed
          obtain ⟨ops, e₁, deleted', -, length⟩ := reachable.sound.localDelete_spec visibleIndex 1
          obtain ⟨rfl, rfl⟩ := Prod.mk.inj (Except.ok.inj (deleted'.symm.trans deleted))
          have edited : s.engine.edit (.delete visibleIndex 1) = .ok (ops.map .delete, e₁) := by
            rw [Engine.edit, deleted]
            rfl
          -- one deletion at most
          have short : ops.length ≤ 1 := by
            rw [length, deletions]
            split_ifs <;> omega
          cases ops with
          | nil =>
              obtain rfl := Except.ok.inj done
              have replays := replays_of_edit reachable edited s.remap
              rw [List.map_nil, List.append_nil] at replays
              exact ⟨_, replays⟩
          | cons newOp rest =>
              obtain rfl : rest = [] :=
                List.eq_nil_of_length_eq_zero (Nat.le_zero.mp (Nat.le_of_succ_le_succ short))
              obtain rfl := Except.ok.inj done
              exact ⟨_, replays_of_edit reachable edited _⟩

/-- The replay of the queue. -/
theorem reconcile_replays {e : Engine} (reachable : e.Reachable) {queuedOps : List Operation}
    {s : Reconciliation} (replayed : reconcileOfflineQueue e queuedOps = .ok s) :
    Grows e s.engine (s.resent.map Operation.id) ∧
      ∀ op ∈ s.resent, ∀ d, op.dependency = some d → d ∈ s.engine.applied := by
  have from_ : ∀ {s₀ : Reconciliation}, s₀.engine.Reachable →
      queuedOps.foldlM Reconciliation.replay s₀ = .ok s → ∃ ids, s₀.Replays s ids := by
    clear replayed
    induction queuedOps with
    | nil =>
        intro s₀ start replayed
        obtain rfl := Except.ok.inj replayed
        exact ⟨[], Reconciliation.replays_refl start⟩
    | cons op queuedOps ih =>
        intro s₀ start replayed
        rw [List.foldlM_cons] at replayed
        obtain ⟨s₁, first, rest⟩ := Throwing.ok_of_bind replayed
        obtain ⟨ids, replays⟩ := Reconciliation.replay_spec start first
        obtain ⟨ids', replays'⟩ := ih replays.grows.reachable rest
        exact ⟨ids ++ ids', replays.trans replays'⟩
  have start : Reconciliation.engine ⟨e, fun _ => none, []⟩ |>.Reachable := reachable
  obtain ⟨ids, replays⟩ := from_ start replayed
  rw [replays.ids]
  exact ⟨replays.grows, fun op member => (replays.based op member).resolve_left nofun⟩

end ConfluenceEditor
