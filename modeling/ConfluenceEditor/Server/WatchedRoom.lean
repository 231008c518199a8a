/-
The sweep in the runs of a room.

`Watched` runs a room and records on its own, without the tables of the source, when a sweep first
noticed what still waits. The write path and the sweep keep three tables in step: the buffer, the
origins and the times (`Watched.Kept`). `sweep_is_exact` is about every state of every run whose
sweeps evict no operation that waits in several copies: at every time, a sweep that meets this
condition evicts what it should, and nothing else. In `sweep_spares_copy` it does not.
-/

import ConfluenceEditor.Server.ExactlyOnce
import ConfluenceEditor.Server.SweepExact

namespace ConfluenceEditor

/-! ### What a message makes wait -/

namespace Coordinator

/-- What a message of a session does to the buffer and to the origins. -/
structure Buffers (c c' : Coordinator) (session : Nat) (ops : List Operation) : Prop where
  waiting : ∀ op ∈ c'.engine.pending, op ∈ c.engine.pending ∨ op ∈ ops
  gone : ∀ op ∈ c.engine.pending, op ∈ c'.engine.pending ∨ c'.engine.hasApplied op.id = true
  applied : ∀ id, c.engine.hasApplied id = true → c'.engine.hasApplied id = true
  settled : c'.engine.Settled
  covered : Covered c'
  origins : ∀ id s, c'.pendingOpOrigin id = some s → c.pendingOpOrigin id = some s ∨
    s = session ∧ ∃ op ∈ ops, op.id = id

/-- A message, also one whose identifiers are not new. -/
theorem buffers_of_process {c c' : Coordinator} {session nowMs : Nat} {ops history : List Operation}
    {relays : List Relay} (built : Built c.engine history) (settled : c.engine.Settled)
    (covered : Covered c)
    (ran : processIncomingOperation c session ops nowMs = .ok (c', relays)) :
    Buffers c c' session ops ∧ ∃ history', Built c'.engine history' := by
  rw [processIncomingOperation] at ran
  by_cases nothing : ops = []
  · rw [if_pos nothing] at ran
    cases ran
    exact ⟨⟨fun _ => Or.inl, fun _ => Or.inl, fun _ => id, settled, covered, fun _ _ => Or.inl⟩,
      history, built⟩
  · rw [if_neg nothing] at ran
    obtain ⟨results, e', applied, direct, released, message, turns⟩ :=
      applyMessage_turns built settled ops
    set resolved := sideEffectResolved c.engine.pending e'.pending with hresolved
    set origins := dropOrigins (recordOrigins c.pendingOpOrigin session results) resolved
    have numbered : ∃ batches, c' =
        (finalize nowMs { c with engine := e', pendingOpOrigin := origins } batches).1 := by
      rw [message] at ran
      by_cases fast : ((results.all fun r => !r.2) && resolved.isEmpty) = true
      · have none := List.isEmpty_iff.mp ((Bool.and_eq_true_iff.mp fast).2)
        have whole : origins = recordOrigins c.pendingOpOrigin session results := by
          show dropOrigins _ resolved = _
          rw [none]
          rfl
        have done := (if_pos fast).symm.trans ran
        rw [whole]
        exact ⟨_, (congrArg Prod.fst (Except.ok.inj done)).symm⟩
      · have done := (if_neg fast).symm.trans ran
        exact ⟨_, (congrArg Prod.fst (Except.ok.inj done)).symm⟩
    obtain ⟨batches, same⟩ := numbered
    obtain ⟨contexts, final⟩ :=
      finalize_eq nowMs { c with engine := e', pendingOpOrigin := origins } batches
    rw [same, final]
    have gone : ∀ op ∈ resolved, e'.hasApplied op.id = true := fun op member => by
      obtain ⟨waiting, left⟩ := mem_sideEffectResolved member
      exact (turns.absorbed.complete op (List.mem_append_left _ waiting)).resolve_left left
    refine ⟨⟨?_, ?_, ?_, ?_, ?_, ?_⟩, _, turns.absorbed.built.congr rfl rfl (Nat.le_refl _)⟩
    · exact fun op member => List.mem_append.mp (turns.absorbed.pendingFrom.subset member)
    · exact fun op member => turns.absorbed.complete op (List.mem_append_left _ member)
    · exact fun id known => built.hasApplied_mono turns.absorbed.built known
    · exact turns.settled
    · exact covered_after covered turns session gone
    · intro id s named
      have kept : recordOrigins c.pendingOpOrigin session results id = some s := by
        have dropped := dropOrigins_apply (recordOrigins c.pendingOpOrigin session results)
          resolved id
        by_cases out : ∃ op ∈ resolved, op.id = id
        · rw [if_pos out] at dropped
          cases dropped.symm.trans named
        · rw [if_neg out] at dropped
          exact dropped.symm.trans named
      exact origins_after session _ turns.offered kept

end Coordinator

/-! ### Runs of a room -/

/-- A room that hands out its replica ids, and a record of its own of when a sweep first noticed each
operation that still waits. -/
structure Watched where
  room : Room
  nextReplicaId : Nat
  noticed : Identifier → Option Nat

namespace Watched

open SweepState

def init (documentId : String) : Watched := ⟨Room.init documentId, 1, fun _ => none⟩

def pending (w : Watched) : List Operation := w.room.state.pending

/-- Forget what does not wait any more; a sweep notices what waited before it and still waits. -/
def watch (w : Watched) (event : RoomEvent) (pending : List Operation) : Identifier → Option Nat :=
  fun id =>
    if id ∈ pending.map Operation.id then
      match event with
      | .sweep nowMs => some ((w.noticed id).getD nowMs)
      | _ => w.noticed id
    else none

/-- A joining session gets the next replica id. -/
def allocateReplicaId (w : Watched) : RoomEvent → Except String Nat
  | .join _ replicaId =>
      if replicaId = w.nextReplicaId then .ok (w.nextReplicaId + 1)
      else .error "not the next replica id"
  | _ => .ok w.nextReplicaId

def step (config : OfflineWindowConfig) (w : Watched) (event : RoomEvent) :
    Except String Watched := do
  let nextReplicaId ← w.allocateReplicaId event
  let room ← Room.step config w.room event
  .ok ⟨room, nextReplicaId, w.watch event room.state.pending⟩

/-- The session that is on record for an operation, if it is still connected. -/
def origin (w : Watched) (op : Operation) : Option Nat :=
  (w.room.state.coordinator.pendingOpOrigin op.id).filter fun session => w.room.isOpen session

/-- None of the operations that a sweep should evict waits in several copies. -/
def Single (config : OfflineWindowConfig) (w : Watched) : RoomEvent → Prop
  | .sweep nowMs => SweepState.Single config w.noticed nowMs w.room.state
  | _ => True

instance (config : OfflineWindowConfig) (w : Watched) (event : RoomEvent) :
    Decidable (Single config w event) :=
  match event with
  | .sweep nowMs => inferInstanceAs (Decidable (SweepState.Single config w.noticed nowMs w.room.state))
  | .join .. => inferInstanceAs (Decidable True)
  | .leave _ => inferInstanceAs (Decidable True)
  | .receive .. => inferInstanceAs (Decidable True)
  | .start _ => inferInstanceAs (Decidable True)
  | .land .. => inferInstanceAs (Decidable True)
  | .succeed _ => inferInstanceAs (Decidable True)
  | .fail _ => inferInstanceAs (Decidable True)

/-- A sweep of this state evicts what it should, and nothing else. -/
def SweepsExactly (config : OfflineWindowConfig) (w : Watched) (nowMs : Nat) : Prop :=
  Exact config w.noticed nowMs w.origin w.room.state
    (w.room.state.runOneDocument w.room.sessions config nowMs).1
    (w.room.state.runOneDocument w.room.sessions config nowMs).2.1
    (w.room.state.runOneDocument w.room.sessions config nowMs).2.2

/-- The buffer, the origins and the times belong together. -/
structure Kept (w : Watched) : Prop where
  built : ∃ history, Built w.room.state.coordinator.engine history
  settled : w.room.state.coordinator.engine.Settled
  covered : Coordinator.Covered w.room.state.coordinator
  /-- The session on record is the one under whose replica id the operation is stamped. -/
  origins : ∀ id session, w.room.state.coordinator.pendingOpOrigin id = some session →
    id.r < w.nextReplicaId ∧ (w.room.isOpen session = true ∨ session ∈ w.room.left) ∧
      ∀ s ∈ w.room.sessions, s.1 = session ↔ s.2 = id.r
  allocated : ∀ s ∈ w.room.sessions, s.2 < w.nextReplicaId
  unique : (w.room.sessions.map Prod.fst).Nodup
  replicas : (w.room.sessions.map Prod.snd).Nodup
  noticed : ∀ op ∈ w.pending, w.room.state.pendingFirstSeenAtMs op.id = w.noticed op.id
  /-- The sweep's times are about operations that wait or have been applied since. -/
  seen : ∀ id, w.room.state.pendingFirstSeenAtMs id ≠ none → id ∈ w.pending.map Operation.id ∨
    w.room.state.coordinator.engine.hasApplied id = true
  watched : ∀ id, w.noticed id ≠ none → id ∈ w.pending.map Operation.id

theorem kept_init (documentId : String) : (init documentId).Kept where
  built := ⟨[], built_new serverReplicaId⟩
  settled := nofun
  covered := nofun
  origins := nofun
  allocated := nofun
  unique := List.nodup_nil
  replicas := List.nodup_nil
  noticed := nofun
  seen := fun _ some => absurd rfl some
  watched := fun _ some => absurd rfl some

namespace Kept

variable {w w' : Watched} {config : OfflineWindowConfig}

/-- The session that the sweep finds is the one on record. -/
theorem found (kept : w.Kept) : ∀ op ∈ w.pending,
    getSessionByReplicaId w.room.sessions op.id.r = w.origin op := by
  intro op waiting
  have ⟨session, record⟩ := kept.covered op waiting
  have ⟨_, _, same⟩ := kept.origins op.id session record
  rw [origin, record, getSessionByReplicaId]
  by_cases opened : w.room.isOpen session = true
  · have ⟨s, member, named⟩ := List.any_eq_true.mp opened
    have named : s.1 = session := of_decide_eq_true named
    have stamped := (same s member).mp named
    cases searched : w.room.sessions.find? fun s => s.2 = op.id.r with
    | none => exact absurd (decide_eq_true stamped) (List.find?_eq_none.mp searched s member)
    | some t =>
        have inside := List.mem_of_find?_eq_some searched
        have hit := List.find?_some searched
        have own := (same t inside).mpr (of_decide_eq_true hit)
        rw [Option.map_some, own]
        exact (if_pos opened).symm
  · have none : w.room.sessions.find? (fun s => s.2 = op.id.r) = none := by
      refine List.find?_eq_none.mpr fun s member stamped => opened ?_
      have named := (same s member).mpr (of_decide_eq_true stamped)
      exact List.any_eq_true.mpr ⟨s, member, decide_eq_true named⟩
    rw [none]
    exact (if_neg opened).symm

theorem sweepsExactly (kept : w.Kept) (grace : 0 < config.pendingRejectTimeoutMs) {nowMs : Nat}
    (single : Single config w (.sweep nowMs)) : SweepsExactly config w nowMs :=
  exact_of_single grace kept.noticed single kept.found

/-- A step that touches neither the buffer nor the sessions. -/
theorem congr (kept : w.Kept) {room : Room} (sessions : room.sessions = w.room.sessions)
    (left : room.left = w.room.left)
    (engine : room.state.coordinator.engine = w.room.state.coordinator.engine)
    (origins : room.state.coordinator.pendingOpOrigin = w.room.state.coordinator.pendingOpOrigin)
    (times : room.state.pendingFirstSeenAtMs = w.room.state.pendingFirstSeenAtMs) :
    Kept { w with room } where
  built := engine ▸ kept.built
  settled := engine ▸ kept.settled
  covered op waiting := by
    rw [origins]
    exact kept.covered op (engine ▸ waiting)
  origins id session record := by
    have old := kept.origins id session (origins ▸ record)
    rwa [Room.isOpen, left, sessions]
  allocated := sessions ▸ kept.allocated
  unique := sessions ▸ kept.unique
  replicas := sessions ▸ kept.replicas
  noticed op waiting := by
    rw [times]
    refine kept.noticed op ?_
    rwa [pending, SweepState.pending, engine] at waiting
  seen id some := by
    rw [times] at some
    rw [pending, SweepState.pending, engine]
    exact kept.seen id some
  watched id some := by
    rw [pending, SweepState.pending, engine]
    exact kept.watched id some

/-- Without a change of the buffer nothing is noticed or forgotten. -/
theorem watch_eq (kept : w.Kept) (event : RoomEvent) (other : ∀ nowMs, event ≠ .sweep nowMs) :
    w.watch event w.pending = w.noticed := by
  funext id
  unfold watch
  by_cases waiting : id ∈ w.pending.map Operation.id
  · rw [if_pos waiting]
    cases event with
    | sweep nowMs => exact absurd rfl (other nowMs)
    | _ => rfl
  · rw [if_neg waiting]
    exact (not_not.mp fun some => waiting (kept.watched id some)).symm

theorem join (kept : w.Kept) {session : Nat}
    (fresh : ¬ (w.room.isOpen session = true ∨ session ∈ w.room.left)) :
    Kept { w with
      room := { w.room with
        sessions := w.room.sessions ++ [(session, w.nextReplicaId)]
        outbox := Function.update w.room.outbox session []
        joinedAt := Function.update w.room.joinedAt session w.room.relays.length }
      nextReplicaId := w.nextReplicaId + 1 } where
  built := kept.built
  settled := kept.settled
  covered := kept.covered
  origins id old record := by
    have ⟨below, stays, same⟩ := kept.origins id old record
    have other : old ≠ session := fun again => fresh (again ▸ stays)
    refine ⟨Nat.lt_succ_of_lt below, stays.imp_left fun opened => ?_, ?_⟩
    · rw [Room.Kept.isOpen_iff] at opened ⊢
      rw [List.map_append]
      exact List.mem_append_left _ opened
    · intro s member
      rcases List.mem_append.mp member with early | late
      · exact same s early
      · rw [List.mem_singleton.mp late]
        exact iff_of_false other.symm (Nat.ne_of_gt below)
  allocated s member := by
    rcases List.mem_append.mp member with early | late
    · exact Nat.lt_succ_of_lt (kept.allocated s early)
    · rw [List.mem_singleton.mp late]
      exact Nat.lt_succ_self _
  unique := by
    rw [List.map_append]
    refine List.nodup_append.mpr ⟨kept.unique, List.nodup_singleton _, ?_⟩
    intro a early b late same
    have named : a = session := by rw [same, List.mem_singleton.mp late]
    exact fresh (Or.inl (Room.Kept.isOpen_iff.mpr (named ▸ early)))
  replicas := by
    rw [List.map_append]
    refine List.nodup_append.mpr ⟨kept.replicas, List.nodup_singleton _, ?_⟩
    intro a early b late same
    have ⟨s, inside, stamped⟩ := List.mem_map.mp early
    have below := kept.allocated s inside
    have next : a = w.nextReplicaId := by rw [same, List.mem_singleton.mp late]
    omega
  noticed := kept.noticed
  seen := kept.seen
  watched := kept.watched

theorem leave (kept : w.Kept) (session : Nat) :
    Kept { w with room := { w.room with
      sessions := w.room.sessions.filter fun s => s.1 ≠ session
      left := w.room.left ++ [session] } } where
  built := kept.built
  settled := kept.settled
  covered := kept.covered
  origins id old record := by
    have ⟨below, stays, same⟩ := kept.origins id old record
    refine ⟨below, ?_, fun s member => same s (List.mem_of_mem_filter member)⟩
    by_cases here : old = session
    · exact Or.inr (List.mem_append_right _ (List.mem_singleton.mpr here))
    · refine stays.imp (fun opened => ?_) (List.mem_append_left _)
      rw [Room.Kept.isOpen_iff] at opened ⊢
      have ⟨s, inside, named⟩ := List.mem_map.mp opened
      exact List.mem_map.mpr ⟨s, List.mem_filter.mpr
        ⟨inside, decide_eq_true fun gone => here (named.symm.trans gone)⟩, named⟩
  allocated s member := kept.allocated s (List.mem_of_mem_filter member)
  unique := kept.unique.sublist (List.filter_sublist.map Prod.fst)
  replicas := kept.replicas.sublist (List.filter_sublist.map Prod.snd)
  noticed := kept.noticed
  seen := kept.seen
  watched := kept.watched

theorem sweep (kept : w.Kept) (grace : 0 < config.pendingRejectTimeoutMs) {nowMs : Nat}
    (single : Single config w (.sweep nowMs)) (rejects : List OpReject) :
    Kept { w with
      room := { w.room with
        state := (w.room.state.runOneDocument w.room.sessions config nowMs).1
        rejects }
      noticed := w.watch (.sweep nowMs)
        (w.room.state.runOneDocument w.room.sessions config nowMs).1.pending } := by
  have exact_ := kept.sweepsExactly grace single
  rw [SweepsExactly] at exact_
  set state := (w.room.state.runOneDocument w.room.sessions config nowMs).1
  have ⟨sub, same⟩ := exact_.untouched
  have applied : ∀ id, state.coordinator.engine.hasApplied id =
      w.room.state.coordinator.engine.hasApplied id := fun id => by rw [same]; rfl
  refine ⟨?_, ?_, ?_, ?_, kept.allocated, kept.unique, kept.replicas, ?_, ?_, ?_⟩
  · have ⟨history, built⟩ := kept.built
    refine ⟨history, built.congr ?_ ?_ ?_⟩
    · show state.coordinator.engine.tree = _
      rw [same]
    · show state.coordinator.engine.applied = _
      rw [same]
    · show _ ≤ state.coordinator.engine.clock
      rw [same]
  · intro op member
    have before := kept.settled op (sub.subset member)
    show state.coordinator.engine.hasApplied op.id = false ∧ state.coordinator.engine.ready op = false
    rw [same]
    exact before
  · intro op member
    have ⟨session, record⟩ := kept.covered op (sub.subset member)
    exact ⟨session, (exact_.origins op member).trans record⟩
  · intro id session record
    have waiting : id ∈ state.pending.map Operation.id := by
      by_contra absent
      cases (exact_.tracked id absent).2.symm.trans record
    have ⟨op, member, named⟩ := List.mem_map.mp waiting
    have old := exact_.origins op member
    rw [named] at old
    exact kept.origins id session (old.symm.trans record)
  · intro op member
    have waiting : op.id ∈ state.pending.map Operation.id := List.mem_map_of_mem member
    exact (exact_.times op member).trans (if_pos waiting).symm
  · intro id some
    refine Or.inl (not_not.mp fun absent => ?_)
    exact some (exact_.tracked id absent).1
  · intro id some
    exact not_not.mp fun absent => some (if_neg absent)

/-- A message that was taken in. -/
theorem accept (kept : w.Kept) {session replicaId nowMs : Nat} {ops : List Operation}
    {c : Coordinator} {relays : List Relay} (opened : (session, replicaId) ∈ w.room.sessions)
    (stamped : ∀ op ∈ ops, op.id.r = replicaId)
    (ran : Coordinator.processIncomingOperation w.room.state.coordinator session ops nowMs =
      .ok (c, relays)) (event : RoomEvent) (other : ∀ nowMs, event ≠ .sweep nowMs) :
    Kept { w with
      room := w.room.accept session ops c relays
      noticed := w.watch event c.engine.pending } := by
  have ⟨history, built⟩ := kept.built
  have ⟨buffers, built'⟩ := Coordinator.buffers_of_process built kept.settled kept.covered ran
  have watch : ∀ id, w.watch event c.engine.pending id =
      if id ∈ c.engine.pending.map Operation.id then w.noticed id else none := by
    intro id
    unfold watch
    cases event with
    | sweep nowMs => exact absurd rfl (other nowMs)
    | _ => rfl
  refine ⟨built', buffers.settled, buffers.covered, ?_, kept.allocated, kept.unique, kept.replicas,
    ?_, ?_, ?_⟩
  · intro id s record
    rcases buffers.origins id s record with old | ⟨mine, op, member, named⟩
    · exact kept.origins id s old
    · rw [mine, ← named, stamped op member]
      refine ⟨kept.allocated _ opened, Or.inl ?_, fun t inside => ?_⟩
      · exact Room.Kept.isOpen_iff.mpr (List.mem_map_of_mem opened)
      · constructor
        · intro same
          rw [List.inj_on_of_nodup_map kept.unique inside opened same]
        · intro same
          rw [List.inj_on_of_nodup_map kept.replicas inside opened same]
  · intro op waiting
    show w.room.state.pendingFirstSeenAtMs op.id = w.watch event c.engine.pending op.id
    have member : op.id ∈ c.engine.pending.map Operation.id := List.mem_map_of_mem waiting
    rw [watch, if_pos member]
    by_cases before : op.id ∈ w.pending.map Operation.id
    · have ⟨x, inside, same⟩ := List.mem_map.mp before
      rw [← same]
      exact kept.noticed x inside
    · -- a new operation has not been noticed
      have unseen : w.room.state.pendingFirstSeenAtMs op.id = none := by
        by_contra some
        have applied := (kept.seen op.id some).resolve_left before
        have unknown := (buffers.settled op waiting).1
        rw [buffers.applied op.id applied] at unknown
        cases unknown
      rw [unseen]
      exact (not_not.mp fun some => before (kept.watched op.id some)).symm
  · intro id some
    rcases kept.seen id some with before | applied
    · have ⟨op, inside, same⟩ := List.mem_map.mp before
      rw [← same]
      exact (buffers.gone op inside).imp_left List.mem_map_of_mem
    · exact Or.inr (buffers.applied id applied)
  · intro id some
    refine not_not.mp fun absent => some ?_
    exact (watch id).trans (if_neg absent)

/-- A message of an open session. -/
theorem receive (kept : w.Kept) {s : Nat × Nat} {session nowMs : Nat} {msg : OpsMessage}
    {room : Room} (opened : s ∈ w.room.sessions) (named : s.1 = session)
    (moved : w.room.receive session s.2 (toOperations msg) nowMs = .ok room) :
    Kept ⟨room, w.nextReplicaId, w.watch (.receive session msg nowMs) room.state.pending⟩ := by
  have ⟨replica, stamps⟩ := exists_replica_toOperations msg
  rw [Room.receive.eq_def] at moved
  cases offered : toOperations msg with
  | nil =>
      rw [offered] at moved
      cases moved
      show Kept ⟨_, _, w.watch (.receive session msg nowMs) w.pending⟩
      rw [kept.watch_eq (.receive session msg nowMs) fun _ => nofun]
      exact kept
  | cons first ops =>
      rw [offered] at moved
      by_cases foreign : first.id.r ≠ s.2
      · cases (if_pos foreign).symm.trans moved
        show Kept ⟨_, _, w.watch (.receive session msg nowMs) w.pending⟩
        rw [kept.watch_eq (.receive session msg nowMs) fun _ => nofun]
        exact kept.congr rfl rfl rfl rfl rfl
      · have ⟨⟨c, relays⟩, ran, result⟩ :=
          Throwing.ok_of_bind ((if_neg foreign).symm.trans moved)
        cases result
        have stamped : ∀ op ∈ first :: ops, op.id.r = s.2 := by
          intro op member
          rw [← not_not.mp foreign, stamps op (offered ▸ member),
            stamps first (offered ▸ List.mem_cons_self)]
        rw [← named] at ran ⊢
        exact kept.accept opened stamped ran (.receive s.1 msg nowMs) fun _ => nofun

/-- Every event keeps buffer, origins and times together, if a sweep meets the condition. -/
theorem step (kept : w.Kept) (grace : 0 < config.pendingRejectTimeoutMs) {event : RoomEvent}
    (single : Single config w event) (done : Watched.step config w event = .ok w') : w'.Kept := by
  obtain ⟨nextReplicaId, allocated, rest⟩ := Throwing.ok_of_bind done
  obtain ⟨room, moved, result⟩ := Throwing.ok_of_bind rest
  cases result
  cases event with
  | join session replicaId =>
      rw [allocateReplicaId] at allocated
      by_cases next : replicaId = w.nextReplicaId
      · rw [if_pos next] at allocated
        cases allocated
        by_cases fresh : w.room.isOpen session = true ∨ session ∈ w.room.left
        · cases (if_pos fresh).symm.trans moved
        · cases (if_neg fresh).symm.trans moved
          rw [next]
          show Kept ⟨_, _, w.watch (.join session w.nextReplicaId) w.pending⟩
          rw [kept.watch_eq (.join session w.nextReplicaId) fun _ => (by rintro ⟨⟩)]
          exact kept.join fresh
      · rw [if_neg next] at allocated
        cases allocated
  | leave session =>
      cases allocated
      by_cases opened : w.room.isOpen session = true
      · cases (if_pos opened).symm.trans moved
        show Kept ⟨_, _, w.watch (.leave session) w.pending⟩
        rw [kept.watch_eq (.leave session) fun _ => (by rintro ⟨⟩)]
        exact kept.leave session
      · cases (if_neg opened).symm.trans moved
  | receive session msg nowMs =>
      cases allocated
      rw [Room.step] at moved
      cases found : w.room.sessions.find? fun s => s.1 = session with
      | none =>
          rw [found] at moved
          cases moved
      | some s =>
          rw [found] at moved
          have named := List.find?_some found
          exact kept.receive (List.mem_of_find?_eq_some found) (of_decide_eq_true named) moved
  | sweep nowMs =>
      cases allocated
      cases moved
      exact kept.sweep grace single _
  | start i =>
      cases allocated
      obtain ⟨queue, _, result⟩ := Throwing.ok_of_bind moved
      cases result
      show Kept ⟨_, _, w.watch (.start i) w.pending⟩
      rw [kept.watch_eq (.start i) fun _ => (by rintro ⟨⟩)]
      exact kept.congr rfl rfl rfl rfl rfl
  | land i committedAtMs =>
      cases allocated
      obtain ⟨⟨store, queue⟩, _, result⟩ := Throwing.ok_of_bind moved
      cases result
      show Kept ⟨_, _, w.watch (.land i committedAtMs) w.pending⟩
      rw [kept.watch_eq (.land i committedAtMs) fun _ => (by rintro ⟨⟩)]
      exact kept.congr rfl rfl rfl rfl rfl
  | succeed i =>
      cases allocated
      obtain ⟨queue, _, result⟩ := Throwing.ok_of_bind moved
      cases result
      show Kept ⟨_, _, w.watch (.succeed i) w.pending⟩
      rw [kept.watch_eq (.succeed i) fun _ => (by rintro ⟨⟩)]
      exact kept.congr rfl rfl rfl rfl rfl
  | fail i =>
      cases allocated
      obtain ⟨queue, _, result⟩ := Throwing.ok_of_bind moved
      cases result
      show Kept ⟨_, _, w.watch (.fail i) w.pending⟩
      rw [kept.watch_eq (.fail i) fun _ => (by rintro ⟨⟩)]
      exact kept.congr rfl rfl rfl rfl rfl

end Kept

/-- **The sweep is exact** in every state of a run, at every time, as long as no sweep evicts an
operation that waits in several copies. -/
theorem sweep_is_exact (documentId : String) (config : OfflineWindowConfig)
    (grace : 0 < config.pendingRejectTimeoutMs) (events : List RoomEvent)
    (single : Run.Each (step config) (Single config) (init documentId) events) :
    Run.Always (step config) (fun w => ∀ nowMs, Single config w (.sweep nowMs) →
      SweepsExactly config w nowMs) (init documentId) events := by
  have always := Run.always_of_each (P := Kept) (C := Single config)
    (fun w event w' kept met done => kept.step grace met done) (kept_init documentId) single
  refine always.imp ?_
  intro w kept nowMs met
  exact kept.sweepsExactly grace met

/-- A character that waits for the one to its left is noticed by a sweep. -/
def noticedOnce : List RoomEvent :=
  [.join 7 1, .join 8 2, .receive 8 (.opInsert ⟨⟨1, 2⟩, 98, some ⟨1, 1⟩, .R, false⟩) 0, .sweep 5000]

theorem sweep_is_exact_once : ∃ w,
    Run.run (step Room.sweepConfig) (init "document") noticedOnce = .ok w ∧
      (w.room.state.runOneDocument w.room.sessions Room.sweepConfig 35000).2.1.length = 1 ∧
      SweepsExactly Room.sweepConfig w 35000 := by
  have ⟨w, ran, checked⟩ := Run.exists_of_ends
    (Run.run (step Room.sweepConfig) (init "document") noticedOnce)
    (fun w => decide ((w.room.state.runOneDocument w.room.sessions Room.sweepConfig
      35000).2.1.length = 1 ∧ Single Room.sweepConfig w (.sweep 35000))) (by decide)
  have ⟨evicted, single⟩ := of_decide_eq_true checked
  have always := sweep_is_exact "document" Room.sweepConfig (by decide) noticedOnce (by decide)
  exact ⟨w, ran, evicted, always.last ran 35000 single⟩

/-- The character is sent twice before it is noticed. -/
def noticedTwice : List RoomEvent :=
  [.join 7 1, .join 8 2, .receive 8 (.opInsert ⟨⟨1, 2⟩, 98, some ⟨1, 1⟩, .R, false⟩) 0,
    .receive 8 (.opInsert ⟨⟨1, 2⟩, 98, some ⟨1, 1⟩, .R, false⟩) 1, .sweep 5000]

/-- Of two copies that are due, the sweep evicts one only. -/
theorem sweep_spares_copy : ¬ ∀ (documentId : String) (config : OfflineWindowConfig),
    0 < config.pendingRejectTimeoutMs → ∀ events : List RoomEvent,
      Run.Always (step config) (fun w => ∀ nowMs, SweepsExactly config w nowMs)
        (init documentId) events := by
  intro always
  have ⟨w, ran, checked⟩ := Run.exists_of_ends
    (Run.run (step Room.sweepConfig) (init "document") noticedTwice)
    (fun w => decide ((w.room.state.runOneDocument w.room.sessions Room.sweepConfig
      35000).2.1.length = 1 ∧ (expired Room.sweepConfig w.noticed 35000 w.pending).length = 2))
      (by decide)
  have ⟨one, two⟩ := of_decide_eq_true checked
  have exact_ := (always "document" Room.sweepConfig (by decide) noticedTwice).last ran 35000
  have ⟨old, same, _⟩ := exact_.exactly
  rw [same, List.length_append] at one
  rw [pending] at two
  omega

end Watched

end ConfluenceEditor
