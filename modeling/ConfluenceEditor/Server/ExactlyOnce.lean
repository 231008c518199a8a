/-
Each operation is finalized once.

A room is a coordinator with its sessions. A delivery of an operation that is already applied is
finalized again, under another number, which the store then recognises by its stamp
(`finalized_once_resent`); an operation of which several copies wait loses its origin when the sweep
evicts one of them. Otherwise the numbers account for the applied operations and the repeated
deliveries, one each, and so do the frames, the commits and the acknowledgements (`finalized_once`).
-/

import ConfluenceEditor.Server.LogRows
import ConfluenceEditor.Server.Sweep

namespace ConfluenceEditor

open Coordinator

/-- The open sessions are listed with their replica ids. `relays` are all frames that were sent,
`outbox` those that a session got, `acked` the acknowledged numbers and stamps. The last four fields
record what happened: the operations that sessions sent, the deliveries of operations that were
applied already, the number of frames before a session joined, and the sessions that left. -/
structure Room where
  state : SweepState
  store : Store
  sessions : List (Nat × Nat)
  relays : List Relay
  outbox : Nat → List Relay
  rejects : List OpReject
  acked : List (Nat × Nat × Identifier)
  sent : List (Nat × Operation)
  repeats : List Operation
  joinedAt : Nat → Nat
  left : List Nat

inductive RoomEvent where
  | join (session replicaId : Nat)
  | leave (session : Nat)
  | receive (session : Nat) (msg : OpsMessage) (nowMs : Nat)
  | sweep (nowMs : Nat)
  | start (i : Nat)
  | land (i : Nat) (committedAtMs : Nat)
  | succeed (i : Nat)
  | fail (i : Nat)
  deriving DecidableEq, Repr

namespace Room

def init (documentId : String) : Room where
  state := ⟨⟨Engine.new serverReplicaId, .resume (.empty documentId), fun _ => none⟩, fun _ => none⟩
  store := .empty documentId
  sessions := []
  relays := []
  outbox _ := []
  rejects := []
  acked := []
  sent := []
  repeats := []
  joinedAt _ := 0
  left := []

def queue (r : Room) : CommitQueue := r.state.coordinator.queue

def setQueue (r : Room) (queue : CommitQueue) : Room :=
  { r with state := { r.state with coordinator := { r.state.coordinator with queue } } }

def isOpen (r : Room) (session : Nat) : Bool := r.sessions.any fun s => s.1 = session

/-- Send the frames to every open session but their origin. -/
def broadcast (r : Room) (relays : List Relay) : Nat → List Relay := fun session =>
  if r.isOpen session then r.outbox session ++ relays.filter fun relay => relay.origin ≠ session
  else r.outbox session

/-- The acknowledgements of a commit: its origin, the numbers and the stamps. -/
def ackEntries (c : Commit) : List (Nat × Nat × Identifier) :=
  (numberedFrom c.startSeq c.ops).map fun row => (c.origin, row.1, row.2.id)

/-- What is acknowledged when commit `i` has succeeded. -/
def acksOf (r : Room) (i : Nat) : List (Nat × Nat × Identifier) :=
  match r.queue.commits[i]? with
  | some c => if r.isOpen c.origin then ackEntries c else []
  | none => []

/-- The write path went through with the operations of a session. -/
def accept (r : Room) (session : Nat) (ops : List Operation) (coordinator : Coordinator)
    (relays : List Relay) : Room :=
  { r with
    state := { r.state with coordinator }
    relays := r.relays ++ relays
    outbox := r.broadcast relays
    sent := r.sent ++ ops.map fun op => (session, op)
    repeats := r.repeats ++ repeated r.state.coordinator.engine ops }

/-- A message whose first operation is not stamped by the session's replica is refused. -/
def receive (r : Room) (session replicaId : Nat) (ops : List Operation) (nowMs : Nat) :
    Except String Room :=
  match ops with
  | [] => .ok r
  | first :: _ =>
      if first.id.r ≠ replicaId then
        .ok { r with rejects := r.rejects ++ [⟨session, ops.map Operation.id, .IDENTITY_MISMATCH,
          "stamp.r (" ++ toString first.id.r ++ ") does not match this session's replica_id (" ++
            toString replicaId ++ ")"⟩] }
      else do
        let (coordinator, relays) ←
          processIncomingOperation r.state.coordinator session ops nowMs
        .ok (r.accept session ops coordinator relays)

def step (config : OfflineWindowConfig) (r : Room) : RoomEvent → Except String Room
  | .join session replicaId =>
      if r.isOpen session ∨ session ∈ r.left then .error "session ids are not used twice"
      else .ok { r with
        sessions := r.sessions ++ [(session, replicaId)]
        outbox := Function.update r.outbox session []
        joinedAt := Function.update r.joinedAt session r.relays.length }
  | .leave session =>
      if r.isOpen session then
        .ok { r with
          sessions := r.sessions.filter fun s => s.1 ≠ session
          left := r.left ++ [session] }
      else .error "no such session"
  | .receive session msg nowMs =>
      match r.sessions.find? fun s => s.1 = session with
      | some (_, replicaId) => r.receive session replicaId (toOperations msg) nowMs
      | none => .error "no such session"
  | .sweep nowMs =>
      let (state, _, rejects) := r.state.runOneDocument r.sessions config nowMs
      .ok { r with state, rejects := r.rejects ++ rejects }
  | .start i => do
      let queue ← r.queue.start i
      .ok (r.setQueue queue)
  | .land i committedAtMs => do
      let (store, queue) ← r.queue.land r.store i committedAtMs
      .ok { r.setQueue queue with store }
  | .succeed i => do
      let queue ← r.queue.succeed i
      .ok { r.setQueue queue with acked := r.acked ++ r.acksOf i }
  | .fail i => do
      let queue ← r.queue.fail i
      .ok (r.setQueue queue)

/-- The operations of an event. -/
def offered : RoomEvent → List Operation
  | .receive _ msg _ => toOperations msg
  | _ => []

/-- The sweep evicts no operation of which several copies wait. -/
def SingleCopies (config : OfflineWindowConfig) (r : Room) : RoomEvent → Prop
  | .sweep nowMs => ∀ op ∈ (r.state.runOneDocument r.sessions config nowMs).2.1,
      r.state.copies op.id ≤ 1
  | _ => True

instance (config : OfflineWindowConfig) (r : Room) (event : RoomEvent) :
    Decidable (SingleCopies config r event) :=
  match event with
  | .sweep _ => inferInstanceAs (Decidable (∀ op ∈ _, _ ≤ 1))
  | .join .. => inferInstanceAs (Decidable True)
  | .leave _ => inferInstanceAs (Decidable True)
  | .receive .. => inferInstanceAs (Decidable True)
  | .start _ => inferInstanceAs (Decidable True)
  | .land .. => inferInstanceAs (Decidable True)
  | .succeed _ => inferInstanceAs (Decidable True)
  | .fail _ => inferInstanceAs (Decidable True)

/-- The frames, commits and acknowledgements of a room agree. -/
structure Books (r : Room) : Prop where
  /-- The numbers are handed out one after the other, on behalf of the session that sent the
  operation. -/
  consecutive : r.queue.Consecutive
  origin : ∀ c ∈ r.queue.commits, ∀ op ∈ c.ops, (c.origin, op) ∈ r.sent
  /-- Every numbered frame is enqueued for commit once, and every other session gets it once. -/
  relayed : r.relays.map (fun f => (f.origin, f.seq, f.ops)) =
    r.queue.commits.map fun c => (c.origin, c.startSeq, c.ops)
  broadcast : ∀ s ∈ r.sessions, r.outbox s.1 =
    (r.relays.drop (r.joinedAt s.1)).filter fun relay => relay.origin ≠ s.1
  /-- A committed number is acknowledged once, to a session that is still there. -/
  ackedOnce : (r.acked.map fun ack => ack.2.1).Nodup
  ackedOnly : ∀ ack ∈ r.acked, ∃ c ∈ r.queue.commits, c.phase = .succeeded ∧ ack ∈ ackEntries c
  acked : ∀ c ∈ r.queue.commits, c.phase = .succeeded → c.origin ∉ r.left →
    ∀ ack ∈ ackEntries c, ack ∈ r.acked

/-- An applied operation has one number and one more for each delivery that repeated it; an operation
that is not applied has none. -/
structure FinalizedOnce (r : Room) : Prop where
  numbers : ∀ p ∈ r.sent, r.queue.finalizedOps.count p.2 =
    (if r.state.coordinator.engine.hasApplied p.2.id then 1 else 0) + r.repeats.count p.2
  repeats : ∀ op ∈ r.repeats, r.state.coordinator.engine.hasApplied op.id = true
  books : r.Books

/-! ### The invariant -/

structure Kept (known : List Operation) (r : Room) (history : List Operation) : Prop where
  engine : Known known r.state.coordinator.engine history []
  covered : Covered r.state.coordinator
  account : r.queue.finalizedOps.Perm (history ++ r.repeats)
  repeats : ∀ op ∈ r.repeats, op ∈ history
  sentKnown : ∀ p ∈ r.sent, p.2 ∈ known
  sentFrom : ∀ p ∈ r.sent, r.isOpen p.1 = true ∨ p.1 ∈ r.left
  origins : ∀ id session, r.state.coordinator.pendingOpOrigin id = some session →
    ∃ op, op.id = id ∧ (session, op) ∈ r.sent
  queue : CommitQueue.Invariant 0 (r.store, r.queue)
  joined : ∀ s ∈ r.sessions, r.joinedAt s.1 ≤ r.relays.length
  books : r.Books

theorem kept_init (documentId : String) {known : List Operation} (distinct : DistinctIds known) :
    Kept known (init documentId) [] where
  engine := ⟨built_new serverReplicaId, nofun, distinct, nofun, nofun, nofun⟩
  covered := nofun
  account := .refl _
  repeats := nofun
  sentKnown := nofun
  sentFrom := nofun
  origins := nofun
  queue := CommitQueue.invariant_resume (.empty documentId) nofun
  joined := nofun
  books := ⟨CommitQueue.consecutive_init documentId, nofun, rfl, nofun, List.nodup_nil, nofun, nofun⟩

namespace Kept

variable {known history : List Operation} {r r' : Room}

theorem finalizedOnce (kept : r.Kept known history) : r.FinalizedOnce where
  numbers p member := by
    have nodup : history.Nodup := kept.engine.built.nodup.of_map
    rw [kept.account.count_eq, List.count_append]
    congr 1
    have applied := kept.engine.built.hasApplied_iff_mem kept.engine.distinct kept.engine.applied
      (kept.sentKnown p member)
    split_ifs with done
    · exact List.count_eq_one_of_mem nodup (applied.mp done)
    · exact List.count_eq_zero.mpr fun inside => done (applied.mpr inside)
  repeats op member := kept.engine.built.hasApplied_iff.mpr ⟨op, kept.repeats op member, rfl⟩
  books := kept.books

/-! ### Sessions -/

theorem isOpen_iff {session : Nat} : r.isOpen session = true ↔ session ∈ r.sessions.map Prod.fst := by
  simp [isOpen]

theorem join (kept : r.Kept known history) {session replicaId : Nat}
    (fresh : ¬ (r.isOpen session = true ∨ session ∈ r.left)) :
    Kept known { r with
      sessions := r.sessions ++ [(session, replicaId)]
      outbox := Function.update r.outbox session []
      joinedAt := Function.update r.joinedAt session r.relays.length } history := by
  have other : ∀ s ∈ r.sessions, s.1 ≠ session := fun s member same =>
    fresh (Or.inl (isOpen_iff.mpr (same ▸ List.mem_map_of_mem member)))
  have books := kept.books
  refine ⟨kept.engine, kept.covered, kept.account, kept.repeats, kept.sentKnown, fun p member => ?_,
    kept.origins, kept.queue, fun s member => ?_, books.consecutive, books.origin, books.relayed,
    fun s member => ?_, books.ackedOnce, books.ackedOnly, books.acked⟩
  · refine (kept.sentFrom p member).imp_left fun opened => ?_
    rw [isOpen_iff] at opened ⊢
    simp only [List.map_append]
    exact List.mem_append_left _ opened
  · rcases List.mem_append.mp member with old | new
    · simp only [Function.update_of_ne (other s old)]
      exact kept.joined s old
    · rw [List.mem_singleton.mp new]
      simp
  · rcases List.mem_append.mp member with old | new
    · simp only [Function.update_of_ne (other s old)]
      exact books.broadcast s old
    · rw [List.mem_singleton.mp new]
      simp

theorem leave (kept : r.Kept known history) (session : Nat) : Kept known { r with
      sessions := r.sessions.filter fun s => s.1 ≠ session
      left := r.left ++ [session] } history := by
  have books := kept.books
  refine ⟨kept.engine, kept.covered, kept.account, kept.repeats, kept.sentKnown, fun p member => ?_,
    kept.origins, kept.queue, fun s member => kept.joined s (List.mem_of_mem_filter member),
    books.consecutive, books.origin, books.relayed, fun s member =>
    books.broadcast s (List.mem_of_mem_filter member), books.ackedOnce, books.ackedOnly,
    fun c member done stays => books.acked c member done fun gone =>
      stays (List.mem_append_left _ gone)⟩
  rcases kept.sentFrom p member with opened | gone
  · by_cases here : p.1 = session
    · exact Or.inr (by simp [here])
    · rw [isOpen_iff] at opened ⊢
      obtain ⟨s, inside, same⟩ := List.mem_map.mp opened
      refine Or.inl (List.mem_map.mpr ⟨s, List.mem_filter.mpr ⟨inside, ?_⟩, same⟩)
      simpa [same] using here
  · exact Or.inr (List.mem_append_left _ gone)

/-! ### The sweep -/

theorem sweep (kept : r.Kept known history) {config : OfflineWindowConfig} {nowMs : Nat}
    (single : r.SingleCopies config (.sweep nowMs)) (rejects : List OpReject) :
    Kept known { r with
      state := (r.state.runOneDocument r.sessions config nowMs).1
      rejects } history := by
  obtain ⟨state, evicted, same, evictions, ⟨pending, engine, sub⟩, queue, copies, known_, origins⟩ :=
    r.state.runOneDocument_spec r.sessions config nowMs
  rw [SingleCopies, evictions] at single
  rw [same]
  have still : ∀ op ∈ state.pending, op ∈ r.state.pending := fun op member => by
    rw [SweepState.pending, engine] at member
    exact sub.subset member
  -- no copy of what still waits was evicted
  have untouched : ∀ op ∈ state.pending, op.id ∉ evicted.map Operation.id := fun op member gone => by
    obtain ⟨x, inside, here⟩ := List.mem_map.mp gone
    have one := single x inside
    rw [here] at one
    have sum := copies op.id
    have evictedOnce := List.count_pos_iff.mpr gone
    have waits : 0 < state.copies op.id := List.count_pos_iff.mpr (List.mem_map_of_mem member)
    omega
  have kept' := kept.engine
  have books := kept.books
  refine ⟨⟨?_, fun op member => ?_, kept'.distinct, kept'.applied, fun op member =>
    kept'.waiting op (still op member), by rintro _ ⟨⟩⟩, fun op member => ?_, ?_, kept.repeats,
    kept.sentKnown, kept.sentFrom, fun id session named => kept.origins id session (known_ id session named), ?_,
    kept.joined, ?_⟩
  · exact kept'.built.congr (by rw [engine]) (by rw [engine]) (by rw [engine])
  · have before := kept'.settled op (still op member)
    rwa [engine]
  · rw [origins op member (untouched op member)]
    exact kept.covered op (still op member)
  · rw [Room.queue, queue]
    exact kept.account
  · rw [Room.queue, queue]
    exact kept.queue
  · obtain ⟨consecutive, origin, relayed, broadcast, ackedOnce, ackedOnly, acked⟩ := books
    rw [Room.queue, ← queue] at consecutive origin relayed ackedOnly acked
    exact ⟨consecutive, origin, relayed, broadcast, ackedOnce, ackedOnly, acked⟩

/-! ### A message -/

section Accept

variable {ops applied own released : List Operation} {c : Coordinator} {session : Nat}
  {relays : List Relay}

/-- The frames of a message are its commits, on behalf of the sessions that sent the operations, and
the other sessions get them. -/
theorem books_accept (kept : r.Kept known history)
    (holds : Known known r.state.coordinator.engine history ops)
    (intake : Intake r.state.coordinator c history applied session ops own released relays) :
    (r.accept session ops c relays).Books := by
  have books := kept.books
  obtain ⟨new, commits, queued, frames⟩ := commits_enqueueAll intake.numbered
  rw [← intake.queue] at commits
  have sentBefore : ∀ p ∈ r.sent, p ∈ r.sent ++ ops.map fun op => (session, op) := fun p member =>
    List.mem_append_left _ member
  refine ⟨?_, fun d member op inOps => ?_, ?_, fun s member => ?_, books.ackedOnce,
    fun ack member => ?_, fun d member done stays => ?_⟩
  · rw [Room.queue, accept, intake.queue]
    exact books.consecutive.enqueueAll _
  · simp only [Room.queue, accept, commits] at member
    rcases List.mem_append.mp member with old | added
    · exact sentBefore _ (books.origin d old op inOps)
    · have listed : (d.origin, d.startSeq, d.ops) ∈ relays.map fun f => (f.origin, f.seq, f.ops) := by
        rw [← frames]
        exact List.mem_map_of_mem added
      obtain ⟨f, inRelays, same⟩ := List.mem_map.mp listed
      obtain ⟨sameOrigin, -, sameOps⟩ : f.origin = d.origin ∧ f.seq = d.startSeq ∧ f.ops = d.ops := by
        simpa using same
      rw [← sameOps] at inOps
      rw [← sameOrigin]
      rcases intake.origin f inRelays with ⟨mine, own⟩ | ⟨x, freed, only, named⟩
      · rw [mine]
        exact List.mem_append_right _ (List.mem_map_of_mem (intake.ownFrom.subset (own op inOps)))
      · rw [only] at inOps
        obtain ⟨y, same, sent⟩ := kept.origins x.id _ named
        rw [List.mem_singleton.mp inOps, ← holds.distinct y (kept.sentKnown _ sent) x
          (holds.waiting x (intake.releasedFrom.subset freed)) same]
        exact sentBefore _ sent
  · simp only [Room.queue, accept, commits, List.map_append]
    rw [frames, books.relayed]
    rfl
  · have opened : r.isOpen s.1 = true := isOpen_iff.mpr (List.mem_map_of_mem member)
    simp only [accept, Room.broadcast, if_pos opened]
    rw [List.drop_append_of_le_length (kept.joined s member), List.filter_append,
      books.broadcast s member]
  · obtain ⟨d, inside, done, listed⟩ := books.ackedOnly ack member
    refine ⟨d, ?_, done, listed⟩
    simp only [Room.queue, accept, commits]
    exact List.mem_append_left _ inside
  · simp only [Room.queue, accept, commits] at member
    rcases List.mem_append.mp member with old | added
    · exact books.acked d old done stays
    · rw [queued d added] at done
      cases done

theorem accept (kept : r.Kept known history) (opened : r.isOpen session = true)
    (holds : Known known r.state.coordinator.engine history ops)
    (intake : Intake r.state.coordinator c history applied session ops own released relays) :
    Kept known (r.accept session ops c relays) (history ++ applied) := by
  have grown : c.queue.finalizedOps = r.queue.finalizedOps ++ (own ++ released) := by
    rw [intake.queue, CommitQueue.finalizedOps_enqueueAll, List.flatMap_map, ← intake.relayed]
    rfl
  have batches : ∀ batch ∈ relays.map (fun f => (f.origin, f.ops)), batch.2 ≠ [] :=
    fun batch member => by
      obtain ⟨f, inside, rfl⟩ := List.mem_map.mp member
      exact intake.nonempty f inside
  refine ⟨⟨intake.absorbed.built, intake.settled, holds.distinct,
    holds.history_known intake.absorbed, fun op member => holds.offered op
      (intake.absorbed.pendingFrom.subset member), nofun⟩, intake.covered, ?_, fun op member => ?_,
    fun p member => ?_, fun p member => ?_, fun id s named => ?_, ?_, fun s member => ?_,
    kept.books_accept holds intake⟩
  · -- the new numbers go to applied operations and to repetitions
    have both := kept.account.append intake.accounted
    rw [Room.queue, Room.accept, grown]
    refine both.trans ?_
    rw [List.append_assoc, List.append_assoc]
    refine List.Perm.append_left history ?_
    rw [← List.append_assoc, ← List.append_assoc]
    exact List.perm_append_comm.append_right _
  · rcases List.mem_append.mp member with old | again
    · exact List.mem_append_left _ (kept.repeats op old)
    · exact intake.mem_history holds op
        (intake.accounted.mem_iff.mpr (List.mem_append_right _ again))
  · rcases List.mem_append.mp member with old | mine
    · exact kept.sentKnown p old
    · obtain ⟨op, inside, rfl⟩ := List.mem_map.mp mine
      exact holds.minted op inside
  · rcases List.mem_append.mp member with old | mine
    · exact kept.sentFrom p old
    · obtain ⟨op, inside, rfl⟩ := List.mem_map.mp mine
      exact Or.inl opened
  · rcases intake.origins id s named with old | ⟨rfl, op, inside, same⟩
    · obtain ⟨op, same, sent⟩ := kept.origins id s old
      exact ⟨op, same, List.mem_append_left _ sent⟩
    · exact ⟨op, same, List.mem_append_right _ (List.mem_map_of_mem inside)⟩
  · rw [Room.queue, Room.accept, intake.queue]
    exact kept.queue.enqueueAll batches
  · simp only [Room.accept, List.length_append]
    exact Nat.le_add_right_of_le (kept.joined s member)

end Accept

theorem receive (kept : r.Kept known history) {session replicaId nowMs : Nat} {msg : OpsMessage}
    (opened : r.isOpen session = true) (minted : ∀ op ∈ toOperations msg, op ∈ known)
    (moved : r.receive session replicaId (toOperations msg) nowMs = .ok r') :
    ∃ history', r'.Kept known history' := by
  unfold Room.receive at moved
  split at moved
  · obtain rfl := Except.ok.inj moved
    exact ⟨history, kept⟩
  split_ifs at moved with foreign
  · obtain rfl := Except.ok.inj moved
    exact ⟨history, kept.engine, kept.covered, kept.account, kept.repeats, kept.sentKnown,
      kept.sentFrom, kept.origins, kept.queue, kept.joined,
      ⟨kept.books.consecutive, kept.books.origin, kept.books.relayed, kept.books.broadcast,
        kept.books.ackedOnce, kept.books.ackedOnly, kept.books.acked⟩⟩
  have holds : Known known r.state.coordinator.engine history (toOperations msg) :=
    { kept.engine with minted }
  obtain ⟨c, relays, applied, own, released, ran, intake⟩ :=
    processIncomingOperation_intake session nowMs holds kept.covered
  rw [ran] at moved
  obtain rfl := Except.ok.inj moved
  exact ⟨history ++ applied, kept.accept opened holds intake⟩

/-! ### The queue -/

/-- The numbers of a commit, as they are acknowledged. -/
theorem mem_ackEntries {c : Commit} {ack : Nat × Nat × Identifier} (member : ack ∈ ackEntries c) :
    ack.1 = c.origin ∧ c.startSeq ≤ ack.2.1 ∧ ack.2.1 < c.startSeq + c.ops.length := by
  obtain ⟨row, inside, rfl⟩ := List.mem_map.mp member
  exact ⟨rfl, numberedFrom_bounds inside⟩

theorem nodup_ackEntries (c : Commit) : ((ackEntries c).map fun ack => ack.2.1).Nodup := by
  have numbers : (ackEntries c).map (fun ack => ack.2.1) =
      (c.ops.zipIdx c.startSeq).map Prod.snd := by
    rw [ackEntries, numberedFrom, List.map_map, List.map_map]
    rfl
  rw [numbers, List.zipIdx_map_snd]
  exact List.nodup_range' ..

section Moved

variable {store : Store} {i : Nat} {c : Commit} {phase : CommitPhase} {last : Nat}

/-- The numbers of different commits are different. -/
theorem ackEntries_apart (kept : r.Kept known history) (entry : r.queue.commits[i]? = some c)
    (undone : c.phase ≠ .succeeded) {ack ack' : Nat × Nat × Identifier} (old : ack ∈ r.acked)
    (new : ack' ∈ ackEntries c) : ack.2.1 ≠ ack'.2.1 := by
  obtain ⟨d, inside, done, listed⟩ := kept.books.ackedOnly ack old
  obtain ⟨j, at?⟩ := List.getElem?_of_mem inside
  obtain ⟨-, low, high⟩ := mem_ackEntries listed
  obtain ⟨-, low', high'⟩ := mem_ackEntries new
  rcases lt_trichotomy i j with less | rfl | greater
  · have apart := (kept.queue.inOrder i j c d less entry at?).1
    rw [Commit.endSeq] at apart
    omega
  · rw [Option.some.inj (entry.symm.trans at?)] at undone
    exact absurd done undone
  · have apart := (kept.queue.inOrder j i d c greater at? entry).1
    rw [Commit.endSeq] at apart
    omega

/-- A commit that has not succeeded moves on. -/
theorem moved (kept : r.Kept known history) (acks : List (Nat × Nat × Identifier))
    (entry : r.queue.commits[i]? = some c)
    (undone : c.phase ≠ .succeeded) (queue : CommitQueue.Invariant 0
      (store, { r.queue.setPhase i phase with lastCommittedSeq := last }))
    (told : (phase ≠ .succeeded ∧ acks = []) ∨
      (phase = .succeeded ∧ acks = if r.isOpen c.origin then ackEntries c else [])) :
    Kept known { r.setQueue { r.queue.setPhase i phase with lastCommittedSeq := last } with
      store, acked := r.acked ++ acks } history := by
  have books := kept.books
  have ops := CommitQueue.finalizedOps_setPhase r.queue i phase
  have self : { c with phase } ∈ (r.queue.setPhase i phase).commits := by
    refine List.mem_of_getElem? (i := i) ?_
    rw [CommitQueue.setPhase, List.getElem?_modify_eq, entry]
    rfl
  refine ⟨kept.engine, kept.covered, ?_, kept.repeats, kept.sentKnown, kept.sentFrom, kept.origins,
    queue, kept.joined, books.consecutive.setPhase i phase last, fun d member op inOps => ?_, ?_,
    books.broadcast, ?_, fun ack member => ?_, fun d member done stays ack listed => ?_⟩
  · exact (List.Perm.of_eq ops).trans kept.account
  · obtain ⟨j, d₀, old, rfl⟩ := CommitQueue.mem_setPhase member
    exact books.origin d₀ (List.mem_of_getElem? old) op inOps
  · exact books.relayed.trans (CommitQueue.map_setPhase _ (fun _ => rfl) r.queue i).symm
  · rw [List.map_append, List.nodup_append]
    rcases told with ⟨-, rfl⟩ | ⟨-, rfl⟩
    · exact ⟨books.ackedOnce, List.nodup_nil, (by rintro _ _ _ ⟨⟩)⟩
    · refine ⟨books.ackedOnce, ?_, fun seq old seq' new => ?_⟩
      · split_ifs
        · exact nodup_ackEntries c
        · exact List.nodup_nil
      · obtain ⟨ack, inside, rfl⟩ := List.mem_map.mp old
        obtain ⟨ack', inside', rfl⟩ := List.mem_map.mp new
        split_ifs at inside' with opened
        · exact kept.ackEntries_apart entry undone inside inside'
        · cases inside'
  · rcases List.mem_append.mp member with old | new
    · obtain ⟨d, inside, done, listed⟩ := books.ackedOnly ack old
      obtain ⟨j, at?⟩ := List.getElem?_of_mem inside
      have other : i ≠ j := fun same => by
        subst same
        rw [Option.some.inj (entry.symm.trans at?)] at undone
        exact undone done
      refine ⟨d, List.mem_of_getElem? (i := j) ?_, done, listed⟩
      rw [← at?]
      exact List.getElem?_modify_ne _ _ other
    · rcases told with ⟨-, rfl⟩ | ⟨rfl, rfl⟩
      · cases new
      · split_ifs at new with opened
        · exact ⟨_, self, rfl, new⟩
        · cases new
  · obtain ⟨j, d₀, old, rfl⟩ := CommitQueue.mem_setPhase member
    by_cases here : i = j
    · subst here
      obtain rfl := Option.some.inj (entry.symm.trans old)
      rw [if_pos rfl] at done
      rcases told with ⟨other, -⟩ | ⟨-, rfl⟩
      · exact absurd done other
      · obtain ⟨op, inOps⟩ := List.exists_mem_of_ne_nil _
          (kept.queue.nonempty c (List.mem_of_getElem? entry))
        have opened : r.isOpen c.origin = true := (kept.sentFrom _ (books.origin c
          (List.mem_of_getElem? entry) op inOps)).resolve_right stays
        rw [if_pos opened]
        exact List.mem_append_right _ listed
    · rw [if_neg here] at done
      exact List.mem_append_left _ (books.acked d₀ (List.mem_of_getElem? old) done stays ack listed)

end Moved

/-- Every event whose sweep evicts single copies only keeps the books. -/
theorem step (kept : r.Kept known history) {config : OfflineWindowConfig} {event : RoomEvent}
    (minted : ∀ op ∈ offered event, op ∈ known) (single : r.SingleCopies config event)
    (done : Room.step config r event = .ok r') : ∃ history', r'.Kept known history' := by
  cases event with
  | join session replicaId =>
      simp only [Room.step] at done
      split_ifs at done with fresh
      obtain rfl := Except.ok.inj done
      exact ⟨history, kept.join fresh⟩
  | leave session =>
      simp only [Room.step] at done
      split_ifs at done
      obtain rfl := Except.ok.inj done
      exact ⟨history, kept.leave session⟩
  | receive session msg nowMs =>
      simp only [Room.step] at done
      split at done
      · rename_i replicaId found
        refine kept.receive (isOpen_iff.mpr ?_) minted done
        have named := List.find?_some found
        exact List.mem_map.mpr ⟨_, List.mem_of_find?_eq_some found, of_decide_eq_true named⟩
      · cases done
  | sweep nowMs =>
      obtain rfl := Except.ok.inj done
      exact ⟨history, kept.sweep single _⟩
  | start i =>
      obtain ⟨queue, started, done⟩ := Throwing.ok_of_bind done
      obtain rfl := Except.ok.inj done
      have inv := kept.queue.step (show CommitQueue.step (r.store, r.queue) (.start i) =
        .ok (r.store, queue) by rw [CommitQueue.step, started]; rfl)
      unfold CommitQueue.start at started
      split at started
      · rename_i c entry
        split_ifs at started with next
        obtain rfl := Except.ok.inj started
        have told := kept.moved [] entry (by rw [next.1]; rintro ⟨⟩) inv (Or.inl ⟨by rintro ⟨⟩, rfl⟩)
        rw [List.append_nil] at told
        exact ⟨history, told⟩
      · cases started
  | land i committedAtMs =>
      obtain ⟨⟨store, queue⟩, landed, done⟩ := Throwing.ok_of_bind done
      obtain rfl := Except.ok.inj done
      have inv := kept.queue.step (show CommitQueue.step (r.store, r.queue)
        (.land i committedAtMs) = .ok (store, queue) by rw [CommitQueue.step, landed])
      obtain ⟨c, entry, running, rfl, rfl⟩ := CommitQueue.land_cases landed
      have told := kept.moved [] entry (by rw [running]; rintro ⟨⟩) inv (Or.inl ⟨by rintro ⟨⟩, rfl⟩)
      rw [List.append_nil] at told
      exact ⟨history, told⟩
  | succeed i =>
      obtain ⟨queue, fulfilled, done⟩ := Throwing.ok_of_bind done
      obtain rfl := Except.ok.inj done
      have inv := kept.queue.step (show CommitQueue.step (r.store, r.queue) (.succeed i) =
        .ok (r.store, queue) by rw [CommitQueue.step, fulfilled]; rfl)
      unfold CommitQueue.succeed at fulfilled
      split at fulfilled
      · rename_i c entry
        split_ifs at fulfilled with landed
        obtain rfl := Except.ok.inj fulfilled
        refine ⟨history, kept.moved _ entry (by rw [landed]; rintro ⟨⟩) inv (Or.inr ⟨rfl, ?_⟩)⟩
        rw [acksOf, entry]
      · cases fulfilled
  | fail i =>
      obtain ⟨queue, failed, done⟩ := Throwing.ok_of_bind done
      obtain rfl := Except.ok.inj done
      have inv := kept.queue.step (show CommitQueue.step (r.store, r.queue) (.fail i) =
        .ok (r.store, queue) by rw [CommitQueue.step, failed]; rfl)
      unfold CommitQueue.fail at failed
      split at failed
      · rename_i c entry
        split_ifs at failed with going
        obtain rfl := Except.ok.inj failed
        have told := kept.moved [] entry
          (by rcases going with phase | phase <;> rw [phase] <;> rintro ⟨⟩) inv
          (Or.inl ⟨by rintro ⟨⟩, rfl⟩)
        rw [List.append_nil] at told
        exact ⟨history, told⟩
      · cases failed

end Kept

/-- In every run of a room, with sessions that come and go, operations that wait, are resent and are
released, sweeps and commits that succeed or fail: as long as the sweep evicts no operation of which
several copies wait, everything that is applied is finalized, relayed, enqueued and acknowledged
once, and once more for each delivery that repeated it; nothing else is. -/
theorem finalized_once (documentId : String) (config : OfflineWindowConfig)
    (events : List RoomEvent) (distinct : DistinctIds (events.flatMap offered))
    (single : Run.Each (step config) (SingleCopies config) (init documentId) events) :
    Run.Always (step config) FinalizedOnce (init documentId) events := by
  have each := single.and_label (D := fun event => ∀ op ∈ offered event,
    op ∈ events.flatMap offered) fun event member op inside => List.mem_flatMap.mpr
      ⟨event, member, inside⟩
  refine (Run.always_of_each (P := fun r => ∃ history, r.Kept (events.flatMap offered) history)
    (fun r event r' kept met done => ?_) ⟨[], kept_init documentId distinct⟩ each).imp fun r kept => ?_
  · obtain ⟨history, kept⟩ := kept
    exact kept.step met.2 met.1 done
  · obtain ⟨history, kept⟩ := kept
    exact kept.finalizedOnce

/-- A character, and one to its right. -/
def waitedFor : InsertOperation := ⟨⟨1, 1⟩, 97, none, .R, false⟩

def waits : InsertOperation := ⟨⟨2, 1⟩, 98, some ⟨1, 1⟩, .R, false⟩

def sweepConfig : OfflineWindowConfig := ⟨30000, none⟩

/-- The right character comes first, twice, and is seen by a sweep; then the left one. -/
def released : List RoomEvent :=
  [.join 7 1, .join 8 2, .receive 7 (.opInsert waits) 0, .receive 7 (.opInsert waits) 1, .sweep 5000,
    .receive 7 (.opInsert waitedFor) 6000, .start 0, .land 0 6000, .succeed 0, .start 1, .land 1 6000,
    .leave 7, .succeed 1]

/-- A character is sent twice. -/
def resent : List RoomEvent :=
  [.join 7 1, .receive 7 (.opInsert waitedFor) 0, .receive 7 (.opInsert waitedFor) 0]

theorem finalized_once_released :
    ∃ r, Run.run (step sweepConfig) (init "document") released = .ok r ∧
      r.queue.finalizedOps = [.insert waitedFor, .insert waits] ∧ r.acked = [(7, 1, ⟨1, 1⟩)] ∧
      r.FinalizedOnce := by
  obtain ⟨r, ran, checked⟩ := Run.exists_of_ends
    (Run.run (step sweepConfig) (init "document") released)
    (fun r => decide (r.queue.finalizedOps = [.insert waitedFor, .insert waits] ∧
      r.acked = [(7, 1, ⟨1, 1⟩)])) (by decide)
  obtain ⟨ops, acked⟩ := of_decide_eq_true checked
  exact ⟨r, ran, ops, acked,
    (finalized_once "document" sweepConfig released (by decide) (by decide)).last ran⟩

/-- An operation that is sent again after it was applied gets a second number. -/
theorem finalized_once_resent : ¬ ∀ (documentId : String) (config : OfflineWindowConfig)
    (events : List RoomEvent), DistinctIds (events.flatMap offered) →
      Run.Always (step config) (fun r => ∀ p ∈ r.sent,
        r.state.coordinator.engine.hasApplied p.2.id = true → r.queue.finalizedOps.count p.2 = 1)
        (init documentId) events := by
  intro once
  obtain ⟨r, ran, checked⟩ := Run.exists_of_ends
    (Run.run (step sweepConfig) (init "document") resent)
    (fun r => decide (∃ p ∈ r.sent, r.state.coordinator.engine.hasApplied p.2.id = true ∧
      r.queue.finalizedOps.count p.2 ≠ 1)) (by decide)
  obtain ⟨p, member, applied, other⟩ := of_decide_eq_true checked
  exact other ((once "document" sweepConfig resent (by decide)).last ran p member applied)

end Room

end ConfluenceEditor
