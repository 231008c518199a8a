/-
No local edit is silently lost.

A minted operation waits in the client's queue or among the rejected operations, until it is
acknowledged, listed, discarded by the user, or taken up by the replay of a handshake, which mints
it again unless its target is gone. A `Ledger` records what every client mints and every turn of a
replay, and `edits_kept` says where each minted operation is in every state of every run: the two
ways to lose one are a `localDelete` that is cut off (`SyncClient.CutsOff`) and the replay of an
undelete, which mints nothing.
-/

import ConfluenceEditor.Client.Turns
import ConfluenceEditor.Collaboration.Rejections
import ConfluenceEditor.Collaboration.SafeDrops

namespace ConfluenceEditor

open Engine Coordinator

namespace ConnectedClient

/-! ### What a client holds -/

/-- The stamp is in the queue, or an operation with it is among the rejected ones. -/
def Holds (c : ConnectedClient) (id : Identifier) : Prop :=
  id ∈ c.queued ∨ ∃ entry ∈ c.rejectedOps, entry.op.id = id

/-- The resident engine and the queue that the next job of the gate replays. -/
def replayNow (c : ConnectedClient) : Option (Engine × List Operation) :=
  match c.handshakeGate, c.engine with
  | (generation, .alreadyHave alreadyHave) :: _, some e =>
      if generation = c.handshakeGeneration then some (e, (c.settleHello alreadyHave).2) else none
  | _, _ => none

/-- The turns of that replay. -/
def turnsNow (c : ConnectedClient) : List (Reconciliation × Operation) :=
  match c.replayNow with
  | some (e, queuedOps) => Reconciliation.turns ⟨e, fun _ => none, []⟩ queuedOps
  | none => []

/-- What it mints. -/
def resentNow (c : ConnectedClient) : List Operation :=
  match c.replayNow with
  | some (e, queuedOps) =>
      match reconcileOfflineQueue e queuedOps with
      | .ok s => s.resent
      | .error _ => []
  | none => []

/-- The stamps that the engine has applied since `c`. -/
def appliedSince (c c' : ConnectedClient) : List Identifier :=
  match c'.engine with
  | some e' => e'.applied.filter fun id => !c.engine.any fun e => e.hasApplied id
  | none => []

/-- What a client mints in an event that leads from `c` to `c'`. -/
def mintedBy (c c' : ConnectedClient) : ClientEvent → List Identifier
  | .edit _ _ => c.appliedSince c'
  | .gate _ => c.resentNow.map Operation.id
  | _ => []

def turnsBy (c : ConnectedClient) : ClientEvent → List (Reconciliation × Operation)
  | .gate _ => c.turnsNow
  | _ => []

def discardedBy (c : ConnectedClient) : ClientEvent → List Identifier
  | .discardRejected => c.rejectedOps.map fun entry => entry.op.id
  | _ => []

/-- The ways in which a client lets go of a stamp. -/
inductive LetsGo (c : ConnectedClient) : ClientEvent → Identifier → Prop
  | acked {acks : List (Identifier × Nat)} {id : Identifier} (queued : id ∈ c.queued)
      (member : id ∈ acks.map Prod.fst) : LetsGo c (.ops (.opAck acks)) id
  | listed {nowMs : Nat} {id : Identifier} (member : id ∈ Collaboration.listedNow c) :
      LetsGo c (.gate nowMs) id
  | replayed {nowMs : Nat} {e : Engine} {queuedOps : List Operation} {op : Operation}
      (replays : c.replayNow = some (e, queuedOps)) (member : op ∈ queuedOps) :
      LetsGo c (.gate nowMs) op.id
  | discarded {id : Identifier} (member : id ∈ c.rejectedOps.map fun entry => entry.op.id) :
      LetsGo c .discardRejected id

section Handlers

variable {c c' : ConnectedClient}

theorem Holds.congr {id : Identifier} (holds : c.Holds id) (unacked : c'.unacked = c.unacked)
    (rejected : c'.rejectedOps = c.rejectedOps) : c'.Holds id := by
  unfold Holds SyncClient.queued
  rw [unacked, rejected]
  exact holds

/-! ### Rejections -/

/-- A stamp that is rejected moves from the queue to the rejected operations. -/
theorem holds_handleReject (c : ConnectedClient) (detail : String)
    (rejected : Identifier × RejectReason) {id : Identifier} (holds : c.Holds id) :
    (c.handleReject detail rejected).Holds id := by
  have handled := handled_handleReject c detail rejected
  obtain ⟨now, stays⟩ := handled.store (fun _ => True) fun _ _ => trivial
  have preserved : ∀ id, Preserved (fun _ => True) (c.handleReject detail rejected) id →
      (c.handleReject detail rejected).Holds id := by
    rintro id ⟨entry, member, named, -⟩
    exact Or.inr ⟨entry, member, named⟩
  rcases holds with queued | ⟨entry, member, named⟩
  · obtain ⟨op, waits, rfl⟩ := List.mem_map.mp queued
    by_cases same : op.id = rejected.1
    · -- what is queued is found
      refine preserved op.id (same ▸ now fun missing => ?_)
      have none_ := (Option.or_eq_none_iff.mp missing).1
      exact List.find?_eq_none.mp none_ op waits (decide_eq_true same)
    · refine Or.inl (List.mem_map_of_mem ?_)
      rw [handled.unacked, UnackedQueue.ack, List.mem_filter]
      exact ⟨waits, by simpa using same⟩
  · exact preserved id (stays id ⟨entry, member, named, trivial⟩)

theorem holds_handleRejects (detail : String) (rejects : List (Identifier × RejectReason))
    (c : ConnectedClient) {id : Identifier} (holds : c.Holds id) :
    (rejects.foldl (fun c rejected => c.handleReject detail rejected) c).Holds id := by
  induction rejects generalizing c with
  | nil => exact holds
  | cons rejected rejects ih => exact ih _ (holds_handleReject c detail rejected holds)

/-- A frame of the channel of operations takes nothing but what it acknowledges. -/
theorem holds_handleOpsMessage {msg : OpsFrameMessage} (handled : c.handleOpsMessage msg = .ok c')
    {id : Identifier} (holds : c.Holds id) : c'.Holds id ∨ LetsGo c (.ops msg) id := by
  cases msg with
  | ops seq ops =>
      simp only [handleOpsMessage, handleOps] at handled
      split_ifs at handled
      · obtain rfl := Except.ok.inj handled
        exact Or.inl holds
      · obtain ⟨c₁, applied, done⟩ := Throwing.ok_of_bind handled
        obtain rfl := Except.ok.inj done
        obtain ⟨engine, waiting, confirmed, rfl⟩ := applyLive_frame applied
        exact Or.inl (holds.congr rfl rfl)
  | opAck acks =>
      obtain rfl := Except.ok.inj handled
      rcases holds with queued | stored
      · obtain ⟨op, waits, rfl⟩ := List.mem_map.mp queued
        by_cases acked : op.id ∈ acks.map Prod.fst
        · exact Or.inr (.acked queued acked)
        · exact Or.inl (Or.inl (List.mem_map_of_mem
            ((Informed.Kept.mem_foldl_ack (acks.map Prod.fst)).mpr ⟨waits, acked⟩)))
      · exact Or.inl (Or.inr stored)
  | opReject rejects detail =>
      obtain rfl := Except.ok.inj handled
      exact Or.inl (holds_handleRejects detail rejects c holds)

/-! ### The end of a handshake -/

/-- An operation that every step leaves in the queue, or takes out under its own identifier. -/
theorem foldl_settle_cases {f : List Operation × List Operation → Identifier →
      List Operation × List Operation} (known : Identifier → Prop)
    (grows : ∀ p id, p.2 ⊆ (f p id).2)
    (taken : ∀ p id, ∀ op ∈ p.1, op ∈ (f p id).1 ∨
      op.id = id ∧ (known id ∨ ∃ x ∈ (f p id).2, x.id = id))
    (ids : List Identifier) (p : List Operation × List Operation) {op : Operation}
    (member : op ∈ p.1) : op ∈ (ids.foldl f p).1 ∨ (op.id ∈ ids ∧ known op.id) ∨
      ∃ x ∈ (ids.foldl f p).2, x.id = op.id := by
  induction ids generalizing p with
  | nil => exact Or.inl member
  | cons id ids ih =>
      have later : ∀ (ids : List Identifier) (p : List Operation × List Operation),
          p.2 ⊆ (ids.foldl f p).2 := by
        intro ids
        induction ids with
        | nil => exact fun p => List.Subset.refl _
        | cons id ids ih => exact fun p x inside => ih (f p id) (grows p id inside)
      rw [List.foldl_cons]
      rcases taken p id op member with stays | ⟨rfl, listed | ⟨x, inside, same⟩⟩
      · exact (ih (f p id) stays).imp_right
          (Or.imp_left fun ⟨reported, listed⟩ => ⟨List.mem_cons_of_mem _ reported, listed⟩)
      · exact Or.inr (Or.inl ⟨List.mem_cons_self, listed⟩)
      · exact Or.inr (Or.inr ⟨x, later ids _ inside, same⟩)

/-- What leaves the queue is listed, or goes to the replay. -/
theorem settleHello_cases (c : ConnectedClient) (alreadyHave : List Identifier) {op : Operation}
    (member : op ∈ c.unacked) : op ∈ (c.settleHello alreadyHave).1 ∨
      (op.id ∈ c.helloUnackedIds ∧ op.id ∈ alreadyHave) ∨
      ∃ x ∈ (c.settleHello alreadyHave).2, x.id = op.id := by
  refine foldl_settle_cases (fun id => id ∈ alreadyHave) (fun p id => ?_)
    (fun p id x inside => ?_) c.helloUnackedIds (c.unacked, []) member
  · obtain ⟨queue, toReconcile⟩ := p
    dsimp only
    split
    · exact List.Subset.refl _
    · split_ifs
      · exact List.Subset.refl _
      · exact List.subset_append_left ..
  · obtain ⟨queue, toReconcile⟩ := p
    dsimp only
    split
    · exact Or.inl inside
    · rename_i entry found
      by_cases same : x.id = id
      · refine Or.inr ⟨same, ?_⟩
        split_ifs with listed
        · exact Or.inl listed
        · exact Or.inr ⟨entry, by simp, id_of_get found⟩
      · refine Or.inl ?_
        rw [UnackedQueue.ack, List.mem_filter]
        exact ⟨inside, by simpa using same⟩

/-- The end of a handshake does not throw. -/
theorem finish_total (resident : Informed.Resident c) (alreadyHave : List Identifier) (nowMs : Nat) :
    ∃ c', c.finishHandshakeAfterAlreadyHave alreadyHave nowMs = .ok c' := by
  unfold finishHandshakeAfterAlreadyHave
  cases here : c.engine with
  | none => exact ⟨c, rfl⟩
  | some e =>
      obtain ⟨s, replayed, -⟩ := Reconciliation.turns_spec (s := ⟨e, fun _ => none, []⟩)
        (resident e here) (c.settleHello alreadyHave).2
      have reconciled : reconcileOfflineQueue e (c.settleHello alreadyHave).2 = .ok s := replayed
      simp only [reconciled, bind, Except.bind]
      split_ifs <;> exact ⟨_, rfl⟩

/-- What is left of the reported queue is replayed, and what that mints is queued. -/
theorem finish_queue {alreadyHave : List Identifier} {nowMs : Nat} {e : Engine}
    (here : c.engine = some e)
    (finished : c.finishHandshakeAfterAlreadyHave alreadyHave nowMs = .ok c') :
    c'.rejectedOps = c.rejectedOps ∧
      ∃ s, reconcileOfflineQueue e (c.settleHello alreadyHave).2 = .ok s ∧
        ∀ id, id ∈ c'.queued ↔ id ∈ UnackedQueue.ids (c.settleHello alreadyHave).1 ∨
          id ∈ s.resent.map Operation.id := by
  unfold finishHandshakeAfterAlreadyHave at finished
  rw [here] at finished
  obtain ⟨s, reconciled, done⟩ := Throwing.ok_of_bind finished
  set settled : ConnectedClient :=
    { c with unacked := (c.settleHello alreadyHave).1, engine := some s.engine }
  obtain ⟨-, queue, -⟩ := Informed.Kept.recordAll_spec s.resent settled
  simp only at done
  split_ifs at done
  · obtain rfl := Except.ok.inj done
    exact ⟨rfl, s, reconciled, queue⟩
  · obtain rfl := Except.ok.inj done
    obtain ⟨-, same⟩ := Informed.Kept.transmit_spec (operationsToWireMessages s.resent)
      (settled.recordAll s.resent).toSyncClient
    exact ⟨rfl, s, reconciled, fun id =>
      (iff_of_eq (congrArg (fun unacked => id ∈ UnackedQueue.ids unacked) same)).trans (queue id)⟩

/-- A job of the gate takes nothing but what it finds listed or replays. -/
theorem holds_runGate {nowMs : Nat} (ran : c.runGate nowMs = .ok c') {id : Identifier}
    (holds : c.Holds id) : c'.Holds id ∨ LetsGo c (.gate nowMs) id := by
  obtain ⟨generation, job, gate, chained, ⟨-, rfl⟩ | ⟨fresh, ran⟩⟩ := runGate_cases ran
  · exact Or.inl (holds.congr rfl rfl)
  cases job with
  | catchupChunk throughSeq ops =>
      simp only [runJob] at ran
      split_ifs at ran
      · obtain rfl := Except.ok.inj ran
        exact Or.inl (holds.congr rfl rfl)
      · obtain ⟨c₁, applied, done⟩ := Throwing.ok_of_bind ran
        obtain rfl := Except.ok.inj done
        obtain ⟨engine, waiting, rfl⟩ := applyChunk_frame applied
        exact Or.inl (holds.congr rfl rfl)
  | catchupEnd toSeq =>
      obtain rfl := Except.ok.inj ran
      exact Or.inl (holds.congr rfl rfl)
  | alreadyHave alreadyHave =>
      cases here : c.engine with
      | none =>
          rw [runJob, finishHandshakeAfterAlreadyHave] at ran
          simp only [here] at ran
          obtain rfl := Except.ok.inj ran
          exact Or.inl (holds.congr rfl rfl)
      | some e =>
          obtain ⟨rejected, s, -, queue⟩ :=
            finish_queue (c := { c with handshakeGate := gate }) here ran
          rcases holds with queued | ⟨entry, member, named⟩
          · obtain ⟨op, waits, rfl⟩ := List.mem_map.mp queued
            rcases settleHello_cases { c with handshakeGate := gate } alreadyHave waits with
              stays | ⟨reported, listed⟩ | ⟨x, replayed, same⟩
            · exact Or.inl (Or.inl ((queue op.id).mpr (Or.inl (List.mem_map_of_mem stays))))
            · refine Or.inr (.listed ?_)
              unfold Collaboration.listedNow
              rw [chained, here]
              simp only [if_pos fresh]
              exact List.mem_filter.mpr ⟨reported, decide_eq_true ⟨queued, listed⟩⟩
            · have replays : c.replayNow = some (e, (c.settleHello alreadyHave).2) := by
                unfold replayNow
                rw [chained, here]
                exact if_pos fresh
              rw [← same]
              exact Or.inr (.replayed replays replayed)
          · exact Or.inl (Or.inr ⟨entry, rejected ▸ member, named⟩)

/-- What the replay mints is queued. -/
theorem holds_resentNow {nowMs : Nat} (ran : c.runGate nowMs = .ok c') {op : Operation}
    (member : op ∈ c.resentNow) : c'.Holds op.id := by
  unfold resentNow at member
  split at member
  case h_2 => cases member
  rename_i e queuedOps replays
  unfold replayNow at replays
  split at replays
  case h_2 => cases replays
  rename_i generation alreadyHave later e' chained here
  split_ifs at replays with fresh
  obtain ⟨rfl, rfl⟩ := Prod.mk.inj (Option.some.inj replays)
  obtain ⟨generation', job, gate, chained', ⟨stale, -⟩ | ⟨-, ran⟩⟩ := runGate_cases ran
  · obtain ⟨⟨rfl, -⟩, -⟩ : (generation = generation' ∧ _ = job) ∧ later = gate := by
      simpa using chained.symm.trans chained'
    exact absurd fresh stale
  · obtain ⟨⟨-, rfl⟩, rfl⟩ : (generation = generation' ∧ _ = job) ∧ later = gate := by
      simpa using chained.symm.trans chained'
    obtain ⟨-, s, reconciled, queue⟩ :=
      finish_queue (c := { c with handshakeGate := later }) here ran
    have same : reconcileOfflineQueue e' (c.settleHello alreadyHave).2 = .ok s := reconciled
    rw [same] at member
    exact Or.inl ((queue op.id).mpr (Or.inr (List.mem_map_of_mem member)))

/-- Whatever happens at a client, it holds on to a stamp or lets go of it in one of the four ways. -/
theorem holds_react {isClusterContinuing : Nat → Bool} {event : ClientEvent}
    (resident : Informed.Resident c) (reacted : Informed.react isClusterContinuing c event = .ok c')
    {id : Identifier} (holds : c.Holds id) : c'.Holds id ∨ LetsGo c event id := by
  cases event with
  | connect nowMs => obtain rfl := Except.ok.inj reacted; exact Or.inl (holds.congr rfl rfl)
  | reopen => obtain rfl := Except.ok.inj reacted; exact Or.inl (holds.congr rfl rfl)
  | opened => obtain rfl := Except.ok.inj reacted; exact Or.inl (holds.congr rfl rfl)
  | closing => obtain rfl := Except.ok.inj reacted; exact Or.inl (holds.congr rfl rfl)
  | closed nowMs => obtain rfl := Except.ok.inj reacted; exact Or.inl (holds.congr rfl rfl)
  | disconnect nowMs => obtain rfl := Except.ok.inj reacted; exact Or.inl (holds.congr rfl rfl)
  | edit call nowMs =>
      obtain rfl := Except.ok.inj reacted
      refine Or.inl (holds.imp_left fun queued => ?_)
      rcases SyncClient.perform_cases (fun e here => (resident e here).sound) isClusterContinuing
        nowMs call with ⟨same, -⟩ | ⟨e, ids, kept, edited, -⟩
      · exact (congrArg (fun c : SyncClient => id ∈ c.queued) same).mpr queued
      · exact (edited.queued id).mpr (Or.inl queued)
  | discardRejected =>
      obtain rfl := Except.ok.inj reacted
      rcases holds with queued | ⟨entry, member, rfl⟩
      · exact Or.inl (Or.inl queued)
      · exact Or.inr (.discarded (List.mem_map_of_mem member))
  | control msg =>
      have controlled := controlled_of_handleControl reacted
      generalize jobOf msg = job at controlled
      cases controlled with
      | told => exact Or.inl (holds.congr rfl rfl)
      | seeded => exact Or.inl (holds.congr rfl rfl)
      | chained => exact Or.inl (holds.congr rfl rfl)
  | ops msg => exact holds_handleOpsMessage reacted holds
  | gate nowMs => exact holds_runGate reacted holds

/-- A client holds what it mints, unless a `localDelete` is cut off. -/
theorem holds_mintedBy {isClusterContinuing : Nat → Bool} {event : ClientEvent}
    (resident : Informed.Resident c) (reacted : Informed.react isClusterContinuing c event = .ok c')
    (whole : ∀ call nowMs, event = .edit call nowMs → ¬ c.CutsOff nowMs call) {id : Identifier}
    (minted : id ∈ c.mintedBy c' event) : c'.Holds id := by
  cases event with
  | edit call nowMs =>
      obtain rfl := Except.ok.inj reacted
      have all := whole call nowMs rfl
      replace minted : id ∈ appliedSince c _ := minted
      unfold appliedSince at minted
      split at minted
      case h_2 => cases minted
      rename_i e' after
      obtain ⟨known, new⟩ := List.mem_filter.mp minted
      have unknown : ∀ e, c.engine = some e → id ∉ e.applied := fun e here old => by
        rw [here] at new
        simp [hasApplied, old] at new
      rcases SyncClient.perform_cases (fun e here => (resident e here).sound) isClusterContinuing
        nowMs call with ⟨same, -⟩ | ⟨e, ids, kept, edited, exact_⟩
      · exact absurd known (unknown e' ((congrArg SyncClient.engine same).symm.trans after))
      · exact Or.inl (edited.recorded (exact_.mpr all) e' after id known unknown)
  | gate nowMs =>
      obtain ⟨op, member, rfl⟩ := List.mem_map.mp minted
      exact holds_resentNow reacted member
  | _ => cases minted

end Handlers

end ConnectedClient

/-- The resident engine stays a reachable one, whatever happens at the client. -/
theorem Informed.Resident.react {isClusterContinuing : Nat → Bool} {c c' : ConnectedClient}
    {event : ClientEvent} (resident : Resident c)
    (reacted : Informed.react isClusterContinuing c event = .ok c') : Resident c' := by
  cases event with
  | connect nowMs => obtain rfl := Except.ok.inj reacted; exact resident.congr rfl
  | reopen => obtain rfl := Except.ok.inj reacted; exact resident.congr rfl
  | opened => obtain rfl := Except.ok.inj reacted; exact resident.congr rfl
  | closing => obtain rfl := Except.ok.inj reacted; exact resident.congr rfl
  | closed nowMs => obtain rfl := Except.ok.inj reacted; exact resident.congr rfl
  | disconnect nowMs => obtain rfl := Except.ok.inj reacted; exact resident.congr rfl
  | discardRejected => obtain rfl := Except.ok.inj reacted; exact resident.congr rfl
  | edit call nowMs =>
      obtain rfl := Except.ok.inj reacted
      exact resident.perform isClusterContinuing nowMs call
  | control msg => exact resident.handleControl reacted
  | ops msg => exact resident.handleOpsMessage reacted
  | gate nowMs => exact resident.runGate reacted

/-! ### What an event is to a client -/

namespace Collaboration

variable {s s' : Collaboration} {settings : Settings} {event : CollaborationEvent}

/-- The client that an event happens at, and what happens there. A frame on a socket that its client
let go happens nowhere. -/
def clientEvent (s : Collaboration) : CollaborationEvent → Option (Nat × ClientEvent)
  | .connect i nowMs => some (i, .connect nowMs)
  | .reopen i => some (i, .reopen)
  | .opened k => s.connections[k]?.map fun conn => (conn.client, .opened)
  | .closing i => some (i, .closing)
  | .closed i nowMs => some (i, .closed nowMs)
  | .disconnect i nowMs => some (i, .disconnect nowMs)
  | .edit i call nowMs => some (i, .edit call nowMs)
  | .discardRejected i => some (i, .discardRejected)
  | .deliver k =>
      s.connections[k]?.bind fun conn =>
        if s.sockets conn.client = some k then
          conn.wire.head?.map fun
            | .control msg => (conn.client, .control msg)
            | .ops msg => (conn.client, .ops msg)
        else none
  | .gate i nowMs => some (i, .gate nowMs)
  | _ => none

/-- An event leaves the clients alone, or one of them reacts to it. -/
theorem clients_of_step (moved : s.step settings event = .ok s') :
    (s.clientEvent event = none ∧ s'.clients = s.clients) ∨
      ∃ i e c' transmitted, s.clientEvent event = some (i, e) ∧
        Informed.react settings.isClusterContinuing (s.clients i) e = .ok c' ∧
        s'.clients = Function.update s.clients i { c' with transmitted } := by
  cases event with
  | connect i nowMs =>
      obtain rfl := Except.ok.inj moved
      exact Or.inr ⟨i, _, _, _, rfl, rfl, rfl⟩
  | reopen i =>
      obtain rfl := Except.ok.inj moved
      exact Or.inr ⟨i, _, _, _, rfl, rfl, rfl⟩
  | opened k =>
      obtain ⟨conn, found, done⟩ := Throwing.ok_of_bind moved
      split_ifs at done
      obtain rfl := Except.ok.inj done
      refine Or.inr ⟨conn.client, .opened, _, _, ?_, rfl, rfl⟩
      rw [clientEvent, connection_ok found]
      rfl
  | closing i =>
      obtain rfl := Except.ok.inj moved
      exact Or.inr ⟨i, _, _, _, rfl, rfl, rfl⟩
  | closed i nowMs =>
      obtain rfl := Except.ok.inj moved
      exact Or.inr ⟨i, _, _, _, rfl, rfl, rfl⟩
  | disconnect i nowMs =>
      obtain rfl := Except.ok.inj moved
      exact Or.inr ⟨i, _, _, _, rfl, rfl, rfl⟩
  | edit i call nowMs =>
      obtain rfl := Except.ok.inj moved
      exact Or.inr ⟨i, _, _, _, rfl, rfl, rfl⟩
  | discardRejected i =>
      obtain rfl := Except.ok.inj moved
      exact Or.inr ⟨i, _, _, _, rfl, rfl, rfl⟩
  | deliver k =>
      obtain ⟨conn, frame, wire, here, onWire, -, ⟨gone, rfl⟩ | ⟨current, c', handled, rfl⟩⟩ :=
        deliver_cases moved
      · refine Or.inl ⟨?_, rfl⟩
        rw [clientEvent, here]
        exact if_neg gone
      · cases frame with
        | control msg =>
            refine Or.inr ⟨conn.client, .control msg, c', _, ?_, handled, rfl⟩
            rw [clientEvent, here, Option.bind_some, if_pos current, onWire]
            rfl
        | ops msg =>
            refine Or.inr ⟨conn.client, .ops msg, c', _, ?_, handled, rfl⟩
            rw [clientEvent, here, Option.bind_some, if_pos current, onWire]
            rfl
  | gate i nowMs =>
      obtain ⟨c', ran, done⟩ := Throwing.ok_of_bind moved
      obtain rfl := Except.ok.inj done
      exact Or.inr ⟨i, .gate nowMs, c', _, rfl, ran, rfl⟩
  | _ => exact Or.inl ⟨rfl, (at_server moved rfl).1.1⟩

/-- The acknowledgements that a client handles are on their way to it. -/
theorem acks_on_wire {i : Nat} {acks : List (Identifier × Nat)}
    (here : s.clientEvent event = some (i, .ops (.opAck acks))) : ∃ (k : Nat) (conn : Connection)
      (wire : List ServerFrame), s.connections[k]? = some conn ∧ conn.client = i ∧
      conn.wire = .ops (.opAck acks) :: wire := by
  cases event with
  | deliver k =>
      obtain ⟨conn, there, current⟩ := Option.bind_eq_some_iff.mp here
      split_ifs at current
      obtain ⟨frame, first, same⟩ := Option.map_eq_some_iff.mp current
      cases frame with
      | control msg => cases same
      | ops msg =>
          obtain ⟨rfl, sent⟩ := Prod.mk.inj same
          obtain rfl := ClientEvent.ops.inj sent
          obtain ⟨wire, onWire⟩ := List.head?_eq_some_iff.mp first
          exact ⟨k, conn, wire, there, rfl, onWire⟩
  | opened k =>
      obtain ⟨conn, -, same⟩ := Option.map_eq_some_iff.mp here
      cases same
  | _ => cases here

end Collaboration

/-! ### The ledger -/

/-- The collaboration, with what every client has minted, the turns of the replays, and what users
have discarded. -/
structure Ledger where
  collaboration : Collaboration
  minted : List (Nat × Identifier)
  turns : List (Nat × Reconciliation × Operation)
  discarded : List (Nat × Identifier)

/-- The operation is an undelete, which a replay skips. -/
def Operation.isUndelete : Operation → Bool
  | .undelete _ => true
  | _ => false

namespace Ledger

def init (documentId : String) : Ledger := ⟨.init documentId, [], [], []⟩

/-- Write down what a client does in an event that leads from `c` to `c'`. -/
def note (s : Ledger) (i : Nat) (event : ClientEvent) (c c' : ConnectedClient) : Ledger :=
  { s with
    minted := s.minted ++ (c.mintedBy c' event).map fun id => (i, id)
    turns := s.turns ++ (c.turnsBy event).map fun turn => (i, turn)
    discarded := s.discarded ++ (c.discardedBy event).map fun id => (i, id) }

def step (settings : Settings) (s : Ledger) (event : CollaborationEvent) : Except String Ledger := do
  let collaboration ← s.collaboration.step settings event
  let noted := match s.collaboration.clientEvent event with
    | some (i, e) => s.note i e (s.collaboration.clients i) (collaboration.clients i)
    | none => s
  .ok { noted with collaboration }

/-- What stands for a stamp that client `i` has minted. -/
inductive Represented (s : Ledger) (i : Nat) : Identifier → Prop
  /-- It has a row. -/
  | durable {id : Identifier} (row : s.collaboration.server.store.Durable id) : Represented s i id
  /-- The live engine had applied it when a listing for this client was computed. -/
  | listed {id : Identifier} {generation : Nat} {e : Engine}
      (listing : (i, generation, e) ∈ s.collaboration.listings)
      (applied : e.hasApplied id = true) : Represented s i id
  /-- It is in the client's queue, or among its rejected operations. -/
  | held {id : Identifier} (holds : (s.collaboration.clients i).Holds id) : Represented s i id
  /-- It was rejected, and the user has discarded it. -/
  | discarded {id : Identifier} (noted : (i, id) ∈ s.discarded) : Represented s i id
  /-- It is a delete whose target was deleted already, or gone, in its turn. -/
  | gone {turn : Reconciliation} {op : DeleteOperation} (taken : (i, turn, .delete op) ∈ s.turns)
      (gone : turn.Gone op) : Represented s i op.id
  /-- It was minted again, and something stands for the new stamp. -/
  | again {turn : Reconciliation} {op newOp : Operation} (taken : (i, turn, op) ∈ s.turns)
      (minted : turn.MintsAgain op newOp) (kept : Represented s i newOp.id) : Represented s i op.id

/-- Every minted stamp is represented, and no end of a handshake would throw. -/
structure KeepsEdits (s : Ledger) : Prop where
  kept : ∀ i id, (i, id) ∈ s.minted → s.Represented i id
  settles : ∀ i alreadyHave nowMs, ∃ c',
    (s.collaboration.clients i).finishHandshakeAfterAlreadyHave alreadyHave nowMs = .ok c'

instance (c : SyncClient) (nowMs : Nat) : (call : EditCall) → Decidable (c.CutsOff nowMs call)
  | .localDelete visibleIndex count =>
      decidable_of_iff (c.Admits nowMs ∧ c.ws = some .CONNECTING ∧
        (c.engine.any fun e => decide (2 ≤ deletions e visibleIndex count)) = true) (by
          unfold SyncClient.CutsOff
          cases c.engine <;> simp)
  | .localInsert .. | .localInsertText .. | .undo | .redo => isFalse id

/-- No `localDelete` is cut off, and no undelete is replayed. -/
def Careful (s : Ledger) (event : CollaborationEvent) : Prop :=
  match s.collaboration.clientEvent event with
  | some (i, .edit call nowMs) => ¬ (s.collaboration.clients i).CutsOff nowMs call
  | some (i, .gate _) => ∀ op ∈ ((s.collaboration.clients i).replayNow.elim [] Prod.snd),
      op.isUndelete = false
  | _ => True

instance (s : Ledger) (event : CollaborationEvent) : Decidable (s.Careful event) := by
  unfold Careful
  split <;> infer_instance

section Run

variable {s s' : Ledger} {settings : Settings} {event : CollaborationEvent}

/-- What stands for a stamp still does, if what the client held does. -/
theorem Represented.mono {i : Nat} {id : Identifier} (represented : s.Represented i id)
    (lasting : ∀ id, s.collaboration.server.store.Durable id →
      s'.collaboration.server.store.Durable id)
    (listings : s.collaboration.listings ⊆ s'.collaboration.listings) (turns : s.turns ⊆ s'.turns)
    (discarded : s.discarded ⊆ s'.discarded)
    (held : ∀ id, (s.collaboration.clients i).Holds id → s'.Represented i id) :
    s'.Represented i id := by
  induction represented with
  | durable row => exact .durable (lasting _ row)
  | listed listing applied => exact .listed (listings listing) applied
  | held holds => exact held _ holds
  | discarded noted => exact .discarded (discarded noted)
  | gone taken gone => exact .gone (turns taken) gone
  | again taken minted kept ih => exact .again (turns taken) minted ih

/-- What a run keeps. -/
structure Kept (s : Ledger) : Prop where
  safe : s.collaboration.Safe
  resident : ∀ i, Informed.Resident (s.collaboration.clients i)
  kept : ∀ i id, (i, id) ∈ s.minted → s.Represented i id

theorem kept_init (documentId : String) : (init documentId).Kept where
  safe := Collaboration.safe_init documentId
  resident i := nofun
  kept i id member := by cases member

theorem Kept.keepsEdits (kept : s.Kept) : s.KeepsEdits where
  kept := kept.kept
  settles i alreadyHave nowMs := ConnectedClient.finish_total (kept.resident i) alreadyHave nowMs

/-- What a listing takes out of the queue may be listed. -/
theorem Represented.of_mayList {i generation : Nat} {id : Identifier}
    (allowed : s.collaboration.MayList i generation id) : s.Represented i id := by
  rcases allowed with row | ⟨e, listing, applied⟩
  · exact .durable row
  · exact .listed listing applied

/-- The turns of a replay stand for what they take up. -/
theorem Represented.of_replay {i nowMs : Nat} {c c' : ConnectedClient} {e : Engine}
    {queuedOps : List Operation} {op : Operation} (resident : Informed.Resident c)
    (replays : c.replayNow = some (e, queuedOps)) (member : op ∈ queuedOps)
    (kind : op.isUndelete = false) (ran : c.runGate nowMs = .ok c')
    (turns : ∀ turn ∈ c.turnsNow, (i, turn) ∈ s.turns)
    (held : ∀ id, c'.Holds id → s.Represented i id) : s.Represented i op.id := by
  have here : c.engine = some e := by
    unfold ConnectedClient.replayNow at replays
    split at replays
    case h_2 => cases replays
    rename_i same
    split_ifs at replays
    rw [same, (Prod.mk.inj (Option.some.inj replays)).1]
  obtain ⟨t, replayed, -, settled⟩ := Reconciliation.turns_spec (s := ⟨e, fun _ => none, []⟩)
    (resident e here) queuedOps
  have reconciled : reconcileOfflineQueue e queuedOps = .ok t := replayed
  obtain ⟨turn, taken, outcome⟩ := settled op member
  have noted : (i, turn, op) ∈ s.turns := by
    refine turns (turn, op) ?_
    rw [ConnectedClient.turnsNow, replays]
    exact taken
  cases outcome with
  | skipped und => cases kind
  | gone del gone => exact .gone noted gone
  | again op newOp minted sent =>
      refine .again noted minted (held newOp.id (ConnectedClient.holds_resentNow ran ?_))
      rw [ConnectedClient.resentNow, replays]
      simp only [reconciled]
      exact sent

/-- What client `i` held stands for itself, or the event says why it let go of it. -/
theorem Represented.of_react {i : Nat} {e : ClientEvent} {c' : ConnectedClient}
    (safe : s.collaboration.Safe) (place : s.collaboration.clientEvent event = some (i, e))
    (resident : Informed.Resident (s.collaboration.clients i))
    (reacted : Informed.react settings.isClusterContinuing (s.collaboration.clients i) e = .ok c')
    (careful : s.Careful event)
    (lasting : ∀ id, s.collaboration.server.store.Durable id →
      s'.collaboration.server.store.Durable id)
    (listings : s.collaboration.listings ⊆ s'.collaboration.listings)
    (turns : ∀ turn ∈ (s.collaboration.clients i).turnsBy e, (i, turn) ∈ s'.turns)
    (discarded : ∀ id ∈ (s.collaboration.clients i).discardedBy e, (i, id) ∈ s'.discarded)
    (held : ∀ id, c'.Holds id → s'.Represented i id) {id : Identifier}
    (holds : (s.collaboration.clients i).Holds id) : s'.Represented i id := by
  rcases ConnectedClient.holds_react resident reacted holds with stays | letsGo
  · exact held id stays
  cases letsGo with
  | acked queued member =>
      obtain ⟨k, conn, wire, here, rfl, onWire⟩ := Collaboration.acks_on_wire place
      refine .durable (lasting id (safe.backed.acked here onWire ?_))
      exact List.mem_filter.mpr ⟨member, decide_eq_true queued⟩
  | listed member => exact .of_mayList ((safe.backed.listedNow member).imp lasting listings)
  | discarded member => exact .discarded (discarded id member)
  | replayed replays member =>
      unfold Careful at careful
      rw [place] at careful
      simp only [replays, Option.elim_some] at careful
      exact .of_replay resident replays member (careful _ member) reacted turns held

/-- A careful event keeps everything. -/
theorem Kept.step (kept : s.Kept) (careful : s.Careful event)
    (moved : s.step settings event = .ok s') : s'.Kept := by
  obtain ⟨collaboration, stepped, done⟩ := Throwing.ok_of_bind moved
  obtain ⟨-, lasting, more⟩ := Collaboration.rows_step kept.safe.rows stepped
  have safe := kept.safe.step stepped
  rcases Collaboration.clients_of_step stepped with
    ⟨nowhere, clients⟩ | ⟨i, e, c', transmitted, place, reacted, clients⟩
  · rw [nowhere] at done
    obtain rfl := Except.ok.inj done
    refine ⟨safe, fun j => ?_, fun j id member => ?_⟩
    · simp only [clients]
      exact kept.resident j
    · refine (kept.kept j id member).mono lasting more (List.Subset.refl _) (List.Subset.refl _)
        fun x holds => .held ?_
      simp only [clients]
      exact holds
  · rw [place] at done
    obtain rfl := Except.ok.inj done
    have here : collaboration.clients i = { c' with transmitted } := by
      rw [clients, Function.update_self]
    have held : ∀ id, c'.Holds id → Represented { s.note i e (s.collaboration.clients i)
        (collaboration.clients i) with collaboration } i id := by
      refine fun id holds => .held ?_
      simp only [here]
      exact holds.congr rfl rfl
    refine ⟨safe, fun j => ?_, fun j id member => ?_⟩
    · by_cases same : j = i
      · subst same
        exact ((kept.resident j).react reacted).congr (congrArg (fun c => c.engine) here)
      · simp only [clients, Function.update_of_ne same]
        exact kept.resident j
    · rcases List.mem_append.mp member with old | new
      · refine (kept.kept j id old).mono lasting more (List.subset_append_left ..)
          (List.subset_append_left ..) fun x holds => ?_
        by_cases same : j = i
        · subst same
          refine Represented.of_react kept.safe place (kept.resident j) reacted careful lasting more
            (fun turn taken => ?_) (fun x gone => ?_) held holds
          · exact List.mem_append_right _ (List.mem_map_of_mem taken)
          · exact List.mem_append_right _ (List.mem_map_of_mem gone)
        · refine .held ?_
          simp only [clients, Function.update_of_ne same]
          exact holds
      · obtain ⟨stamp, minted, same⟩ := List.mem_map.mp new
        obtain ⟨rfl, rfl⟩ := Prod.mk.inj same
        refine held stamp (ConnectedClient.holds_mintedBy (kept.resident i) reacted ?_ ?_)
        · rintro call nowMs rfl
          unfold Careful at careful
          rw [place] at careful
          exact careful
        · rw [here] at minted
          cases e <;> exact minted

end Run

/-! ### Two runs -/

/-- A client joins an empty document. -/
def joins : List CollaborationEvent :=
  [.connect 0 0, .opened 0, .hello 0 .EDITOR, .handshake 0, .drain 0, .drain 0, .drain 0,
    .deliver 0, .deliver 0, .deliver 0, .gate 0 0]

/-- It types a character that the server never handles, loses its socket and reconnects. -/
def retyped : List CollaborationEvent :=
  joins ++ [.edit 0 (.localInsert 0 97 none) 0, .closed 0 0, .reopen 0, .opened 1,
    .hello 1 .EDITOR, .handshake 1, .handshake 1, .drain 1, .drain 1, .drain 1, .deliver 1,
    .deliver 1, .deliver 1, .gate 0 0]

/-- It types a character and deletes it, both are acknowledged, and it takes the deletion back just
before it loses its socket and reconnects. -/
def revived : List CollaborationEvent :=
  joins ++ [.edit 0 (.localInsert 0 97 none) 0, .edit 0 (.localDelete 0 1) 0, .receive 0 0 none 0,
    .receive 0 0 none 0, .start 0, .land 0 0, .succeed 0, .start 1, .land 1 0, .succeed 1,
    .flushAcks 0, .drain 0, .deliver 0, .edit 0 .undo 0, .closed 0 0, .reopen 0, .opened 1,
    .hello 1 .EDITOR, .handshake 1, .handshake 1, .drain 1, .drain 1, .deliver 1, .deliver 1,
    .gate 0 0]

/-- The undelete is lost: the replay skips it, and nothing stands for it. -/
theorem undelete_lost : ¬ ∀ (settings : Settings) (documentId : String)
    (events : List CollaborationEvent),
    Run.Always (step settings) KeepsEdits (init documentId) events := by
  intro keeps
  obtain ⟨s, ran, checked⟩ := Run.exists_of_ends
    (Run.run (step Collaboration.plainSettings) (init "document") revived)
    (fun s => decide ((0, (⟨3, 1⟩ : Identifier)) ∈ s.minted) &&
      s.turns.all (fun turn => turn.2.2.isUndelete) && s.discarded.isEmpty &&
      s.collaboration.listings.all (fun listing => !listing.2.2.hasApplied ⟨3, 1⟩) &&
      decide ((s.collaboration.clients 0).queued = []) &&
      (s.collaboration.clients 0).rejectedOps.isEmpty &&
      s.collaboration.server.store.operations.all (fun row => decide (row.op.id ≠ ⟨3, 1⟩)))
    (by decide +kernel)
  simp only [Bool.and_eq_true, decide_eq_true_eq, List.all_eq_true, List.isEmpty_iff] at checked
  obtain ⟨⟨⟨⟨⟨⟨minted, turns⟩, discarded⟩, listings⟩, queued⟩, rejected⟩, rows⟩ := checked
  have represented := ((keeps Collaboration.plainSettings "document" revived).last ran).kept 0 _ minted
  generalize named : (⟨3, 1⟩ : Identifier) = id at represented
  cases represented with
  | durable row =>
      obtain ⟨entry, member, same⟩ := row
      exact rows entry member (same.trans named.symm)
  | listed listing applied =>
      have none_ := listings _ listing
      rw [named, applied] at none_
      cases none_
  | held holds =>
      rcases holds with waits | ⟨entry, member, -⟩
      · rw [queued] at waits
        cases waits
      · rw [rejected] at member
        cases member
  | discarded noted =>
      rw [discarded] at noted
      cases noted
  | gone taken gone => cases turns _ taken
  | @again turn op newOp taken minted kept =>
      have kind := turns _ taken
      cases op with
      | undelete und => cases minted.same
      | insert ins => cases kind
      | delete del => cases kind

end Ledger

end ConfluenceEditor
