/-
What a rejection takes back.

The client handles the listed operations one by one. What it still holds goes into the rejected
store, and an insert is taken out of the resident engine if nothing hangs on it at that moment. A
parent that is listed before its child therefore stays (`parent_stays`). `rejection_spec` says which
nodes go: those below which every branch was tried from the bottom up; a closed set that is listed
children first goes as a whole, and the other nodes are as they were in every case.
-/

import ConfluenceEditor.Collaboration.ClosedBase
import ConfluenceEditor.Engine.Reverts

namespace ConfluenceEditor

open Engine

/-! ### The resident engine of a run -/

namespace Informed

variable {c c' : ConnectedClient} {heard : List (Nat × Operation)} {e e' : Engine}

/-- The resident engine, if there is one, is reached by calls of its methods. -/
def Resident (c : ConnectedClient) : Prop := ∀ e, c.engine = some e → e.Reachable

theorem Resident.congr (resident : Resident c) (same : c'.engine = c.engine) : Resident c' := by
  intro e here
  exact resident e (same ▸ here)

theorem resident_some (here : c'.engine = some e') (reachable : e'.Reachable) : Resident c' := by
  intro e same
  obtain rfl := Option.some.inj (here.symm.trans same)
  exact reachable

theorem Resident.perform (resident : Resident c) (isClusterContinuing : Nat → Bool) (nowMs : Nat)
    (call : EditCall) : Resident (c.perform isClusterContinuing nowMs call) := by
  cases here : c.engine with
  | none =>
      have none_ : ∀ e, c.engine ≠ some e := fun e same => by
        rw [here] at same
        cases same
      have idle : ∀ e, c.engine = some e → e.Sound := fun e same => absurd same (none_ e)
      rcases SyncClient.perform_cases idle isClusterContinuing nowMs call with
        ⟨same, -⟩ | ⟨e, ids, kept, edited, -⟩
      · exact resident.congr (congrArg SyncClient.engine same)
      · exact absurd edited.before (none_ e)
  | some e =>
      obtain ⟨e', ops, path, after, -⟩ :=
        SyncClient.perform_path isClusterContinuing nowMs call here
      exact resident_some after (Edits.keeps path (resident e here)).1

theorem Resident.applyChunk {throughSeq : Nat} {ops : List Operation} (resident : Resident c)
    (applied : c.applyChunk throughSeq ops = .ok c') : Resident c' := by
  induction ops generalizing c with
  | nil =>
      obtain rfl := Except.ok.inj applied
      exact resident
  | cons op ops ih =>
      rw [ConnectedClient.applyChunk] at applied
      split at applied
      · obtain rfl := Except.ok.inj applied
        exact resident
      · rename_i e here
        obtain ⟨⟨buffered, e₁⟩, done, applied⟩ := Throwing.ok_of_bind applied
        refine ih (resident_some ?_ ((resident e here).applyRemote done)) applied
        unfold ConnectedClient.noteCatchupPossiblyBuffered
        split_ifs <;> rfl

theorem Resident.applyLive {seq : Nat} {ops : List Operation} (resident : Resident c)
    (applied : c.applyLive seq ops = .ok c') : Resident c' := by
  induction ops generalizing c seq with
  | nil =>
      obtain rfl := Except.ok.inj applied
      exact resident
  | cons op ops ih =>
      rw [ConnectedClient.applyLive] at applied
      split at applied
      · obtain rfl := Except.ok.inj applied
        exact resident
      · rename_i e here
        obtain ⟨⟨buffered, e₁⟩, done, applied⟩ := Throwing.ok_of_bind applied
        refine ih (resident_some ?_ ((resident e here).applyRemote done)) applied
        split_ifs <;> rfl

theorem Resident.handleControl (resident : Resident c) {msg : ControlMessage}
    (handled : c.handleControl msg = .ok c') : Resident c' := by
  have controlled := ConnectedClient.controlled_of_handleControl handled
  generalize ConnectedClient.jobOf msg = job at controlled
  cases controlled with
  | told => exact resident.congr rfl
  | seeded _ _ _ _ _ seed => exact resident_some rfl (reachable_seed seed)
  | chained job => exact resident.congr rfl

theorem Resident.handleOpsMessage (resident : Resident c) {msg : OpsFrameMessage}
    (handled : c.handleOpsMessage msg = .ok c') : Resident c' := by
  cases msg with
  | ops seq ops =>
      simp only [ConnectedClient.handleOpsMessage, ConnectedClient.handleOps] at handled
      split_ifs at handled
      · obtain rfl := Except.ok.inj handled
        exact resident
      · obtain ⟨c₁, applied, done⟩ := Throwing.ok_of_bind handled
        obtain rfl := Except.ok.inj done
        exact (resident.applyLive applied).congr rfl
  | opAck acks =>
      obtain rfl := Except.ok.inj handled
      exact resident.congr rfl
  | opReject rejects detail =>
      obtain ⟨-, engine⟩ :=
        Kept.handleRejects_spec resident detail rejects (Except.ok.inj handled)
      intro e' same
      obtain ⟨e, before, shrunk⟩ := engine e' same
      exact shrunk.reachable (resident e before)

theorem Resident.finish (resident : Resident c) {alreadyHave : List Identifier} {nowMs : Nat}
    (finished : c.finishHandshakeAfterAlreadyHave alreadyHave nowMs = .ok c') : Resident c' := by
  unfold ConnectedClient.finishHandshakeAfterAlreadyHave at finished
  cases here : c.engine with
  | none =>
      rw [here] at finished
      obtain rfl := Except.ok.inj finished
      exact resident
  | some e =>
      rw [here] at finished
      obtain ⟨s, replayed, done⟩ := Throwing.ok_of_bind finished
      obtain ⟨grows, -⟩ := reconcile_replays (resident e here) replayed
      set settled : ConnectedClient :=
        { c with unacked := (c.settleHello alreadyHave).1, engine := some s.engine }
      obtain ⟨engine, -, -⟩ := Kept.recordAll_spec s.resent settled
      have grown : Resident (settled.recordAll s.resent) :=
        resident_some engine grows.reachable
      simp only at done
      split_ifs at done
      · obtain rfl := Except.ok.inj done
        exact grown
      · obtain rfl := Except.ok.inj done
        obtain ⟨same, -⟩ := Kept.transmit_spec (ConnectedClient.operationsToWireMessages s.resent)
          (settled.recordAll s.resent).toSyncClient
        exact grown.congr same

theorem Resident.runGate (resident : Resident c) {nowMs : Nat} (ran : c.runGate nowMs = .ok c') :
    Resident c' := by
  obtain ⟨generation, job, gate, -, ⟨-, rfl⟩ | ⟨-, ran⟩⟩ := ConnectedClient.runGate_cases ran
  · exact resident.congr rfl
  · have started : Resident { c with handshakeGate := gate } := resident.congr rfl
    cases job with
    | catchupChunk throughSeq ops =>
        simp only [ConnectedClient.runJob] at ran
        split_ifs at ran
        · obtain rfl := Except.ok.inj ran
          exact started
        · obtain ⟨c₁, applied, done⟩ := Throwing.ok_of_bind ran
          obtain rfl := Except.ok.inj done
          exact (started.applyChunk applied).congr rfl
    | catchupEnd toSeq =>
        obtain rfl := Except.ok.inj ran
        exact started.congr rfl
    | alreadyHave alreadyHave => exact started.finish ran

/-- In every run of the client the resident engine is a reachable one. -/
theorem resident_of_reaches {isClusterContinuing : Nat → Bool} {s : Informed}
    (reached : Run.Reaches (step isClusterContinuing) init s) : Resident s.client := by
  refine reached.invariant (P := fun s => Resident s.client) nofun fun s event s' resident moved => ?_
  obtain ⟨c', reacted, done⟩ := Throwing.ok_of_bind moved
  obtain rfl := Except.ok.inj done
  cases event with
  | connect nowMs => obtain rfl := Except.ok.inj reacted; exact resident.congr rfl
  | reopen => obtain rfl := Except.ok.inj reacted; exact resident.congr rfl
  | opened => obtain rfl := Except.ok.inj reacted; exact resident.congr rfl
  | closing => obtain rfl := Except.ok.inj reacted; exact resident.congr rfl
  | closed nowMs => obtain rfl := Except.ok.inj reacted; exact resident.congr rfl
  | disconnect nowMs => obtain rfl := Except.ok.inj reacted; exact resident.congr rfl
  | discardRejected => obtain rfl := Except.ok.inj reacted; exact resident.congr rfl
  | edit call nowMs =>
      obtain rfl := Except.ok.inj reacted
      exact resident.perform isClusterContinuing nowMs call
  | control msg => exact resident.handleControl reacted
  | ops msg => exact resident.handleOpsMessage reacted
  | gate nowMs => exact resident.runGate reacted

end Informed

/-! ### One rejected operation -/

namespace ConnectedClient

variable {c c' : ConnectedClient} {e : Engine}

/-- What the client still holds under an identifier. -/
def held (c : ConnectedClient) (id : Identifier) : Option Operation :=
  (UnackedQueue.get c.unacked id).or (UnackedQueue.get c.recentlySentOps id)

theorem id_of_get {entries : List Operation} {id : Identifier} {op : Operation}
    (found : UnackedQueue.get entries id = some op) : op.id = id := by
  simpa using List.find?_some found

theorem held_spec {id : Identifier} {op : Operation} (found : c.held id = some op) :
    op.id = id ∧ (op ∈ c.unacked ∨ op ∈ c.recentlySentOps) := by
  rcases Option.or_eq_some_iff.mp found with queued | ⟨-, sent⟩
  · exact ⟨id_of_get queued, Or.inl (List.mem_of_find?_eq_some queued)⟩
  · exact ⟨id_of_get sent, Or.inr (List.mem_of_find?_eq_some sent)⟩

/-- Giving up another stamp does not matter. -/
theorem get_ack {entries : List Operation} {id other : Identifier} (apart : id ≠ other) :
    UnackedQueue.get (UnackedQueue.ack entries other) id = UnackedQueue.get entries id := by
  rw [UnackedQueue.get, UnackedQueue.ack, List.find?_filter]
  refine congrArg (fun p => List.find? p entries) ?_
  funext op
  by_cases same : op.id = id
  · simp [same, apart]
  · simp [same]

/-- The inserts that the client tries to take out, in turn. An insert that was found in the queue is
found again only if it was sent recently. -/
def triedFrom (recentlySentOps : List Operation) : List Operation → List Identifier → List Identifier
  | _, [] => []
  | unacked, id :: ids =>
      match (UnackedQueue.get unacked id).or (UnackedQueue.get recentlySentOps id) with
      | some (.insert ins) =>
          ins.id :: triedFrom recentlySentOps (UnackedQueue.ack unacked id) ids
      | _ => triedFrom recentlySentOps (UnackedQueue.ack unacked id) ids

def tried (c : ConnectedClient) (ids : List Identifier) : List Identifier :=
  triedFrom c.recentlySentOps c.unacked ids

theorem triedFrom_cons (recentlySentOps unacked : List Operation) (id : Identifier)
    (ids : List Identifier) : triedFrom recentlySentOps unacked (id :: ids) =
      triedFrom recentlySentOps unacked [id] ++
        triedFrom recentlySentOps (UnackedQueue.ack unacked id) ids := by
  simp only [triedFrom]
  cases (UnackedQueue.get unacked id).or (UnackedQueue.get recentlySentOps id) with
  | none => rfl
  | some op => cases op <;> rfl

/-- Listed once each, the inserts that the client holds are tried as they are listed. -/
theorem tried_eq {ids : List Identifier} (once : ids.Nodup)
    (inserts : ∀ id ∈ ids, ∃ ins, c.held id = some (.insert ins)) : c.tried ids = ids := by
  unfold tried
  have from_ : ∀ unacked : List Operation, (∀ id ∈ ids, ∃ ins,
      (UnackedQueue.get unacked id).or (UnackedQueue.get c.recentlySentOps id) =
        some (.insert ins)) → triedFrom c.recentlySentOps unacked ids = ids := by
    clear inserts
    induction ids with
    | nil => exact fun _ _ => rfl
    | cons id ids ih =>
        intro unacked inserts
        obtain ⟨fresh, once⟩ := List.nodup_cons.mp once
        obtain ⟨ins, found⟩ := inserts id List.mem_cons_self
        have named : ins.id = id := (held_spec (c := { c with unacked := unacked }) found).1
        have rest := ih once (UnackedQueue.ack unacked id) fun x member => by
          have apart : x ≠ id := fun same => fresh (same ▸ member)
          rw [get_ack apart]
          exact inserts x (List.mem_cons_of_mem _ member)
        rw [triedFrom, found]
        exact congrArg₂ List.cons named rest
  exact from_ c.unacked inserts

/-- The store has an entry for the stamp, with an operation that the client held. -/
def Preserved (held : Operation → Prop) (c : ConnectedClient) (id : Identifier) : Prop :=
  ∃ entry ∈ c.rejectedOps, entry.op.id = id ∧ held entry.op

theorem preserved_preserveRejected (held : Operation → Prop) (c : ConnectedClient)
    (entry : RejectedEntry) (here : held entry.op) :
    Preserved held (c.preserveRejected entry) entry.op.id ∧
      ∀ id, Preserved held c id → Preserved held (c.preserveRejected entry) id := by
  unfold Preserved preserveRejected
  simp only
  split_ifs with stored
  · obtain ⟨old, inside, same⟩ := List.any_eq_true.mp stored
    have same : old.op.id = entry.op.id := of_decide_eq_true same
    have new : entry ∈ c.rejectedOps.map fun x => if x.op.id = entry.op.id then entry else x :=
      List.mem_map.mpr ⟨old, inside, if_pos same⟩
    refine ⟨⟨entry, new, rfl, here⟩, ?_⟩
    rintro id ⟨x, member, named, was⟩
    by_cases replaced : x.op.id = entry.op.id
    · exact ⟨entry, new, replaced.symm.trans named, here⟩
    · exact ⟨x, List.mem_map.mpr ⟨x, member, if_neg replaced⟩, named, was⟩
  · refine ⟨⟨entry, by simp, rfl, here⟩, ?_⟩
    rintro id ⟨x, member, named, was⟩
    exact ⟨x, List.mem_append_left _ member, named, was⟩

/-- What handling one stamp does. -/
structure Handled (c c' : ConnectedClient) (id : Identifier) : Prop where
  unacked : c'.unacked = UnackedQueue.ack c.unacked id
  recentlySentOps : c'.recentlySentOps = c.recentlySentOps
  engine : ∀ e, c.engine = some e → c'.engine = some (e.revertAll (c.tried [id]))
  store : ∀ held : Operation → Prop, (∀ op, c.held id = some op → held op) →
    (c.held id ≠ none → Preserved held c' id) ∧
      ∀ other, Preserved held c other → Preserved held c' other

theorem handleReject_eq (c : ConnectedClient) (detail : String)
    (rejected : Identifier × RejectReason) : c.handleReject detail rejected =
      match c.held rejected.1 with
      | none => { c with unacked := UnackedQueue.ack c.unacked rejected.1 }
      | some op =>
          let reverted := revert { c with unacked := UnackedQueue.ack c.unacked rejected.1 } op
          reverted.2.preserveRejected ⟨op, rejected.2, detail, reverted.1⟩ := rfl

theorem handled_handleReject (c : ConnectedClient) (detail : String)
    (rejected : Identifier × RejectReason) :
    Handled c (c.handleReject detail rejected) rejected.1 := by
  have shape : c.tried [rejected.1] = match c.held rejected.1 with
      | some (.insert ins) => [ins.id]
      | _ => [] := rfl
  rw [handleReject_eq]
  cases found : c.held rejected.1 with
  | none =>
      refine ⟨rfl, rfl, fun e here => ?_, fun held _ =>
        ⟨fun some => absurd found some, fun _ => id⟩⟩
      rw [shape, found]
      exact here
  | some op =>
      obtain ⟨named, -⟩ := held_spec found
      set c₀ : ConnectedClient := { c with unacked := UnackedQueue.ack c.unacked rejected.1 }
        with hc₀
      have parts : (c₀.revert op).2.unacked = c₀.unacked ∧
          (c₀.revert op).2.recentlySentOps = c.recentlySentOps ∧
          (c₀.revert op).2.rejectedOps = c.rejectedOps := by
        unfold revert
        split <;> exact ⟨rfl, rfl, rfl⟩
      refine ⟨parts.1, parts.2.1, fun e here => ?_, fun held holds => ?_⟩
      · rw [shape, found]
        have resident : c₀.engine = some e := here
        show (c₀.revert op).2.engine = _
        unfold revert
        rw [resident]
        cases op with
        | insert ins => rfl
        | delete del => exact resident
        | undelete und => exact resident
      · obtain ⟨now, stays⟩ := preserved_preserveRejected held (c₀.revert op).2
          ⟨op, rejected.2, detail, (c₀.revert op).1⟩ (holds op found)
        rw [named] at now
        refine ⟨fun _ => now, fun other was => stays other ?_⟩
        unfold Preserved at was ⊢
        rwa [parts.2.2]

/-! ### The whole message -/

/-- What handling the listed stamps does. -/
theorem handleRejects_all (detail : String) (rejects : List (Identifier × RejectReason))
    (c : ConnectedClient) (resident : c.engine = some e) (held : Operation → Prop)
    (holds : ∀ op, op ∈ c.unacked ∨ op ∈ c.recentlySentOps → held op) :
    (rejects.foldl (fun c rejected => c.handleReject detail rejected) c).engine =
        some (e.revertAll (c.tried (rejects.map Prod.fst))) ∧
      (∀ id ∈ rejects.map Prod.fst, c.held id ≠ none → Preserved held
        (rejects.foldl (fun c rejected => c.handleReject detail rejected) c) id) ∧
      ∀ id, Preserved held c id → Preserved held
        (rejects.foldl (fun c rejected => c.handleReject detail rejected) c) id := by
  induction rejects generalizing c e with
  | nil => exact ⟨resident, nofun, fun _ was => was⟩
  | cons rejected rejects ih =>
      have handled := handled_handleReject c detail rejected
      set c₁ := c.handleReject detail rejected
      obtain ⟨now, stays⟩ := handled.store held fun op found => holds op (held_spec found).2
      obtain ⟨engine, store, kept⟩ := ih c₁ (handled.engine e resident) fun op member => by
        rw [handled.unacked, handled.recentlySentOps] at member
        exact holds op (member.imp_left fun inside => (List.mem_filter.mp inside).1)
      refine ⟨?_, fun id member there => ?_, fun id was => kept id (stays id was)⟩
      · rw [List.foldl_cons, engine, revertAll, revertAll, revertAll, ← List.foldl_append]
        refine congrArg (fun tried => some (List.foldl _ e tried)) ?_
        rw [tried, tried, tried, handled.unacked, handled.recentlySentOps, List.map_cons,
          triedFrom_cons _ _ _ (rejects.map Prod.fst)]
      · by_cases first : id = rejected.1
        · exact kept id (first ▸ now (first ▸ there))
        · refine store id ((List.mem_cons.mp member).resolve_left first) ?_
          rw [ConnectedClient.held, handled.unacked, handled.recentlySentOps, get_ack first]
          exact there

end ConnectedClient

/-- After a rejection every listed operation that the client held is in the rejected store, and the
nodes that are gone are those below which every branch was tried from the bottom up; the others are
as they were. A closed set of the client's inserts that is listed children first is gone. -/
theorem rejection_spec {c : ConnectedClient} {e : Engine} (resident : c.engine = some e)
    (reachable : e.Reachable) (rejects : List (Identifier × RejectReason)) (detail : String) :
    ∃ c' e', c.handleOpsMessage (.opReject rejects detail) = .ok c' ∧ c'.engine = some e' ∧
      Reverted e e' (BottomUp e.tree.nodes (c.tried (rejects.map Prod.fst))) ∧
      (∀ id ∈ rejects.map Prod.fst, c.held id ≠ none → ∃ entry ∈ c'.rejectedOps,
        entry.op.id = id ∧ (entry.op ∈ c.unacked ∨ entry.op ∈ c.recentlySentOps)) ∧
      ((rejects.map Prod.fst).Nodup →
        (∀ id ∈ rejects.map Prod.fst, ∃ ins, c.held id = some (.insert ins)) →
        (∀ m ∈ e.tree.nodes, ∀ p ∈ rejects.map Prod.fst, m.parent = some p →
          m.id ∈ rejects.map Prod.fst) →
        ((rejects.map Prod.fst).Pairwise fun a b => ∀ m ∈ e.tree.nodes, m.id = b →
          m.parent ≠ some a) →
        ∀ n ∈ e'.tree.nodes, n.id ∉ rejects.map Prod.fst) := by
  obtain ⟨engine, store, -⟩ := c.handleRejects_all detail rejects resident
    (fun op => op ∈ c.unacked ∨ op ∈ c.recentlySentOps) fun op member => member
  have reverted := (reachable.sound.revertAll_spec (c.tried (rejects.map Prod.fst))).2
  refine ⟨_, _, rfl, engine, reverted, store, fun once inserts closed listed n member inside => ?_⟩
  have all : c.tried (rejects.map Prod.fst) = rejects.map Prod.fst :=
    ConnectedClient.tried_eq once inserts
  refine ((reverted.mem n).mp member).2 ?_
  rw [all]
  exact bottomUp_of_listed reachable.sound.wf closed listed inside

namespace Informed

/-- The client types two characters as one text. -/
def typesTwo : List ClientEvent := joined ++ [.edit (.localInsertText 0 [97, 98]) 2]

/-- Listed children first, the two characters are gone after their rejection. -/
theorem rejection_spec_typesTwo : ∃ s e c' e',
    Run.run (step fun _ => false) init typesTwo = .ok s ∧ s.client.engine = some e ∧
      e.tree.nodes.length = 2 ∧
      s.client.handleOpsMessage (.opReject [(⟨2, 1⟩, .PERMISSION_DENIED),
        (⟨1, 1⟩, .PERMISSION_DENIED)] "") = .ok c' ∧ c'.engine = some e' ∧
      ∀ n ∈ e'.tree.nodes, n.id ∉ [⟨2, 1⟩, (⟨1, 1⟩ : Identifier)] := by
  obtain ⟨s, ran, checked⟩ := Run.exists_of_ends (Run.run (step fun _ => false) init typesTwo)
    (fun s : Informed => s.client.engine.any fun e : Engine =>
      decide (e.tree.nodes = [⟨⟨1, 1⟩, 97, none, .R, false, false, none⟩,
        ⟨⟨2, 1⟩, 98, some ⟨1, 1⟩, .R, false, false, none⟩]) &&
      decide (s.client.held ⟨1, 1⟩ = some (.insert ⟨⟨1, 1⟩, 97, none, .R, false⟩)) &&
      decide (s.client.held ⟨2, 1⟩ = some (.insert ⟨⟨2, 1⟩, 98, some ⟨1, 1⟩, .R, false⟩)))
    (by decide +kernel)
  cases here : s.client.engine with
  | none =>
      rw [here] at checked
      cases checked
  | some e =>
      simp only [here, Option.any_some, Bool.and_eq_true, decide_eq_true_eq] at checked
      obtain ⟨⟨nodes, first⟩, second⟩ := checked
      have reachable : e.Reachable := resident_of_reaches ⟨_, ran⟩ e here
      obtain ⟨c', e', handled, after, -, -, gone⟩ := rejection_spec here reachable
        [(⟨2, 1⟩, .PERMISSION_DENIED), (⟨1, 1⟩, .PERMISSION_DENIED)] ""
      refine ⟨s, e, c', e', ran, here, by rw [nodes]; rfl, handled, after, gone (by decide) ?_ ?_ ?_⟩
      · intro id member
        rcases List.mem_cons.mp member with rfl | last
        · exact ⟨_, second⟩
        · obtain rfl := List.mem_singleton.mp last
          exact ⟨_, first⟩
      · rw [nodes]
        decide
      · rw [nodes]
        decide

/-- Listed in the order in which they were typed, the first character stays. -/
theorem parent_stays : ¬ ∀ (s : Informed) (e : Engine) (rejects : List (Identifier × RejectReason))
    (detail : String), Run.Reaches (step fun _ => false) init s → s.client.engine = some e →
    (∀ id ∈ rejects.map Prod.fst, id.r = e.replicaId ∧
      ∃ ins, s.client.held id = some (.insert ins)) →
    (∀ m ∈ e.tree.nodes, ∀ p ∈ rejects.map Prod.fst, m.parent = some p →
      m.id ∈ rejects.map Prod.fst) →
    ∃ c' e', s.client.handleOpsMessage (.opReject rejects detail) = .ok c' ∧
      c'.engine = some e' ∧ Reverted e e' (fun n => n.id ∈ rejects.map Prod.fst) ∧
      ∀ id ∈ rejects.map Prod.fst, ∃ entry ∈ c'.rejectedOps, entry.op.id = id := by
  intro reverts
  set rejects : List (Identifier × RejectReason) :=
    [(⟨1, 1⟩, .PERMISSION_DENIED), (⟨2, 1⟩, .PERMISSION_DENIED)] with hrejects
  obtain ⟨s, ran, checked⟩ := Run.exists_of_ends (Run.run (step fun _ => false) init typesTwo)
    (fun s : Informed => s.client.engine.any fun e : Engine => decide (e.replicaId = 1) &&
      decide (s.client.held ⟨1, 1⟩ = some (.insert ⟨⟨1, 1⟩, 97, none, .R, false⟩)) &&
      decide (s.client.held ⟨2, 1⟩ = some (.insert ⟨⟨2, 1⟩, 98, some ⟨1, 1⟩, .R, false⟩)) &&
      decide (∀ m ∈ e.tree.nodes, ∀ p ∈ rejects.map Prod.fst, m.parent = some p →
        m.id ∈ rejects.map Prod.fst) &&
      Run.ends (s.client.handleOpsMessage (.opReject rejects "")) fun c' =>
        c'.engine.any fun e' : Engine => decide (∃ n ∈ e'.tree.nodes, n.id = ⟨1, 1⟩)) (by decide +kernel)
  cases here : s.client.engine with
  | none =>
      rw [here] at checked
      cases checked
  | some e =>
      simp only [here, Option.any_some, Bool.and_eq_true, decide_eq_true_eq] at checked
      obtain ⟨⟨⟨⟨replicaId, first⟩, second⟩, closed⟩, kept⟩ := checked
      have inserts : ∀ id ∈ rejects.map Prod.fst, id.r = e.replicaId ∧
          ∃ ins, s.client.held id = some (.insert ins) := by
        intro id member
        rcases List.mem_cons.mp member with rfl | last
        · exact ⟨replicaId.symm, _, first⟩
        · obtain rfl := List.mem_singleton.mp last
          exact ⟨replicaId.symm, _, second⟩
      obtain ⟨c', e', handled, after, reverted, -⟩ :=
        reverts s e rejects "" ⟨_, ran⟩ here inserts closed
      obtain ⟨c₁, handled₁, stays⟩ := Run.exists_of_ends _ _ kept
      obtain rfl := Except.ok.inj (handled.symm.trans handled₁)
      simp only [after, Option.any_some, decide_eq_true_eq] at stays
      obtain ⟨n, inside, named⟩ := stays
      refine ((reverted.mem n).mp inside).2 ?_
      rw [named]
      decide

end Informed

end ConfluenceEditor
