/-
What leaves a client's queue is safe.

An acknowledgement is sent after the commit, so a stamp that it takes out of a queue has a row. A
listing also names what the live engine has applied, and such an operation may have no row: its
commit is still in the queue, or has failed, or the process that applied it has died
(`dropped_early`). `dropped_safely` says that these are the only stamps that leave a queue without a
row.
-/

import ConfluenceEditor.Collaboration.Promises

namespace ConfluenceEditor

open Engine Coordinator

/-! ### The rows of the store -/

/-- The tables are in order, and the queue is the queue of a run. -/
structure Server.Rows (s : Server) : Prop where
  wf : s.store.WF
  queue : ∃ base, CommitQueue.Invariant base (s.store, s.coordinator.queue)

namespace Server.Rows

variable {s s' : Server}

theorem init (documentId : String) : (Server.init documentId).Rows where
  wf := Store.wf_empty documentId
  queue := ⟨0, CommitQueue.invariant_resume (.empty documentId) nofun⟩

/-- The engine does not matter, and the queue may take more. -/
theorem enqueueAll (rows : s.Rows) {coordinator : Coordinator} {received : List Operation}
    {batches : List (Nat × List Operation)}
    (queue : coordinator.queue = s.coordinator.queue.enqueueAll batches)
    (nonempty : ∀ batch ∈ batches, batch.2 ≠ []) : Rows { s with coordinator, received } := by
  obtain ⟨base, invariant⟩ := rows.queue
  refine ⟨rows.wf, base, ?_⟩
  simp only [queue]
  exact invariant.enqueueAll nonempty

theorem keepQueue (rows : s.Rows) {coordinator : Coordinator}
    (queue : coordinator.queue = s.coordinator.queue) : Rows { s with coordinator } := by
  refine ⟨rows.wf, ?_⟩
  simp only [queue]
  exact rows.queue

/-- A commit moves on without touching the store. -/
theorem setQueue (rows : s.Rows) {queue : CommitQueue} (event : CommitQueue.Event)
    (moved : CommitQueue.step (s.store, s.coordinator.queue) event = .ok (s.store, queue)) :
    (s.setQueue queue).Rows := by
  obtain ⟨base, invariant⟩ := rows.queue
  exact ⟨rows.wf, base, invariant.step moved⟩

/-- Every event of the server keeps the tables in order, and every row. -/
theorem step (rows : s.Rows) {event : ServerEvent} (moved : s.step event = .ok s') :
    s'.Rows ∧ ∀ id, s.store.Durable id → s'.store.Durable id := by
  cases event with
  | receive session ops nowMs =>
      obtain ⟨⟨c, relays⟩, processed, done⟩ := Throwing.ok_of_bind moved
      obtain rfl := Except.ok.inj done
      obtain ⟨batches, queue, nonempty⟩ := processIncomingOperation_queue processed
      exact ⟨rows.enqueueAll queue nonempty, fun _ durable => durable⟩
  | start i =>
      obtain ⟨queue, started, done⟩ := Throwing.ok_of_bind moved
      obtain rfl := Except.ok.inj done
      refine ⟨rows.setQueue (.start i) ?_, fun _ durable => durable⟩
      rw [CommitQueue.step, started]
      rfl
  | land i now =>
      obtain ⟨⟨store, queue⟩, landed, done⟩ := Throwing.ok_of_bind moved
      obtain rfl := Except.ok.inj done
      obtain ⟨base, invariant⟩ := rows.queue
      obtain ⟨c, entry, running, rfl, -⟩ := CommitQueue.land_cases landed
      have inCommits := List.mem_of_getElem? entry
      have below := invariant.below entry running
      have positive : 0 < c.startSeq :=
        Nat.lt_of_le_of_lt (Nat.zero_le _) (invariant.range c inCommits).1
      obtain ⟨new, spec, number⟩ :=
        s.store.commitOperations_spec c.startSeq now c.ops (invariant.nonempty c inCommits) below
      have event : CommitQueue.step (s.store, s.coordinator.queue) (.land i now) =
          .ok ((s.store.commitOperations c.startSeq c.ops now).2, queue) := landed
      exact ⟨⟨spec.wf rows.wf below positive number, base, invariant.step event⟩,
        fun id durable => spec.durable_mono id durable⟩
  | succeed i =>
      obtain ⟨queue, fulfilled, done⟩ := Throwing.ok_of_bind moved
      obtain rfl := Except.ok.inj done
      have kept : (s.setQueue queue).Rows := rows.setQueue (.succeed i) (by
        rw [CommitQueue.step, fulfilled]
        rfl)
      exact ⟨⟨kept.wf, kept.queue⟩, fun _ durable => durable⟩
  | fail i =>
      obtain ⟨queue, failed, done⟩ := Throwing.ok_of_bind moved
      obtain rfl := Except.ok.inj done
      refine ⟨rows.setQueue (.fail i) ?_, fun _ durable => durable⟩
      rw [CommitQueue.step, failed]
      rfl
  | capture =>
      obtain ⟨row, -, done⟩ := Throwing.ok_of_bind moved
      obtain rfl := Except.ok.inj done
      exact ⟨⟨rows.wf, rows.queue⟩, fun _ durable => durable⟩
  | writeSnapshot k =>
      simp only [Server.step] at moved
      split at moved
      case h_2 => cases moved
      rename_i row _
      obtain rfl := Except.ok.inj moved
      cases written : s.store.writeSnapshot row with
      | none => exact ⟨⟨rows.wf, rows.queue⟩, fun _ durable => durable⟩
      | some store =>
          obtain ⟨-, operations, -, wf⟩ := Store.writeSnapshot_spec written
          obtain ⟨base, invariant⟩ := rows.queue
          refine ⟨⟨wf rows.wf, base, invariant.congr_store operations⟩, fun id durable => ?_⟩
          obtain ⟨row, member, same⟩ := durable
          exact ⟨row, operations ▸ member, same⟩
  | restart =>
      obtain ⟨c, started, done⟩ := Throwing.ok_of_bind moved
      obtain rfl := Except.ok.inj done
      refine ⟨⟨rows.wf, s.store.currentSeq, ?_⟩, fun _ durable => durable⟩
      simp only [warmStart_queue started]
      exact CommitQueue.invariant_resume s.store fun row member => (rows.wf.numbered row member).2

/-- What is acknowledged has rows. -/
theorem acked (rows : s.Rows) {i : Nat} (moved : s.step (.succeed i) = .ok s') :
    ∀ op ∈ Server.opsOf s.coordinator.queue i, s.store.Durable op.id := by
  obtain ⟨queue, fulfilled, -⟩ := Throwing.ok_of_bind moved
  obtain ⟨base, invariant⟩ := rows.queue
  unfold CommitQueue.succeed at fulfilled
  split at fulfilled
  · rename_i c entry
    split_ifs at fulfilled with landed
    have named : Server.opsOf s.coordinator.queue i = c.ops := by
      unfold Server.opsOf
      simp only [entry]
    rw [named]
    exact invariant.durable c (List.mem_of_getElem? entry) (Or.inl landed)
  · cases fulfilled

end Server.Rows

namespace Collaboration

/-- The stamp may be listed for this client and generation: it has a row, or the live engine had
applied it when a listing for them was computed. -/
def MayList (s : Collaboration) (client generation : Nat) (id : Identifier) : Prop :=
  s.server.store.Durable id ∨
    ∃ e, (client, generation, e) ∈ s.listings ∧ e.hasApplied id = true

theorem MayList.imp {s s' : Collaboration} {client generation : Nat} {id : Identifier}
    (allowed : s.MayList client generation id)
    (lasting : ∀ id, s.server.store.Durable id → s'.server.store.Durable id)
    (more : s.listings ⊆ s'.listings) : s'.MayList client generation id := by
  rcases allowed with durable | ⟨e, listed, applied⟩
  · exact Or.inl (lasting id durable)
  · exact Or.inr ⟨e, more listed, applied⟩

/-- Every stamp that an acknowledgement took out of a queue has a row, and every stamp that a listing
took out has a row or was applied in the live engine when the listing was computed. -/
def DropsSafely (s : Collaboration) : Prop :=
  ∀ client generation id cause, (client, generation, id, cause) ∈ s.dropped →
    match cause with
    | .opAck => s.server.store.Durable id
    | .alreadyHave => s.MayList client generation id

/-- What a run keeps. -/
structure Safe (s : Collaboration) : Prop where
  rows : s.server.Rows
  backed : s.Backed s.server.store.Durable s.MayList
  dropped : s.DropsSafely

theorem safe_init (documentId : String) : (init documentId).Safe where
  rows := .init documentId
  backed := backed_init _ _ documentId
  dropped := nofun

/-- Every event keeps the tables in order, every row and every listing. -/
theorem rows_step {s s' : Collaboration} {settings : Settings} {event : CollaborationEvent}
    (rows : s.server.Rows) (moved : s.step settings event = .ok s') : s'.server.Rows ∧
      (∀ id, s.server.store.Durable id → s'.server.store.Durable id) ∧
      s.listings ⊆ s'.listings := by
  by_cases place : event.atClient = true
  · obtain ⟨server, listings⟩ := at_client moved place
    rw [server, listings]
    exact ⟨rows, fun _ durable => durable, List.Subset.refl _⟩
  · obtain ⟨⟨-, -, more⟩, same | ⟨e, stepped, -⟩ | ⟨nowMs, rfl⟩⟩ :=
      at_server moved (Bool.eq_false_iff.mpr place)
    · rw [same]
      exact ⟨rows, fun _ durable => durable, more⟩
    · obtain ⟨kept, lasting⟩ := rows.step stepped
      exact ⟨kept, lasting, more⟩
    · obtain ⟨coordinator, pending, server, queue, -⟩ := sweep_server s settings nowMs
      rw [server]
      exact ⟨rows.keepQueue queue, fun _ durable => durable, more⟩

/-- A listing is recorded with the live engine that it is computed from. -/
theorem listing_recorded {s s' : Collaboration} {settings : Settings} {k : Nat}
    {conn : Connection} {unacked ids : List Identifier} (here : s.connections[k]? = some conn)
    (stage : conn.handshake = some (.found unacked ids))
    (moved : s.step settings (.handshake k) = .ok s') :
    (conn.client, conn.generation, s.server.coordinator.engine) ∈ s'.listings := by
  obtain ⟨conn', found, done⟩ := Throwing.ok_of_bind moved
  obtain rfl := Option.some.inj (here.symm.trans (connection_ok found))
  rw [stage] at done
  obtain rfl := Except.ok.inj done
  exact List.mem_append_right _ List.mem_cons_self

theorem Safe.step {s s' : Collaboration} {settings : Settings} (safe : s.Safe)
    {event : CollaborationEvent} (moved : s.step settings event = .ok s') : s'.Safe := by
  obtain ⟨rows, lasting, more⟩ := rows_step safe.rows moved
  have kept : ∀ i generation id, s.MayList i generation id → s'.MayList i generation id :=
    fun _ _ _ allowed => allowed.imp lasting more
  refine ⟨rows, safe.backed.step moved lasting kept lasting (fun _ _ _ => Or.inl) ?_ ?_, ?_⟩
  · rintro k rfl conn unacked ids here stage id applied
    exact Or.inr ⟨_, listing_recorded here stage moved, applied⟩
  · rintro i rfl op member
    obtain ⟨next, served, -⟩ := Throwing.ok_of_bind moved
    exact lasting op.id (safe.rows.acked (onServer_same served).1 op member)
  · intro client generation id cause member
    rcases safe.backed.dropped moved member with old | new
    · have known := safe.dropped client generation id cause old
      cases cause with
      | opAck => exact lasting id known
      | alreadyHave => exact kept client generation id known
    · cases cause with
      | opAck => exact lasting id new
      | alreadyHave => exact kept client generation id new

/-- In every run, whatever leaves a client's queue because of an acknowledgement has a row, and
whatever leaves it because of a listing has a row or was applied in the live engine that the listing
was computed from. -/
theorem dropped_safely (settings : Settings) (documentId : String)
    (events : List CollaborationEvent) :
    Run.Always (step settings) DropsSafely (init documentId) events :=
  (Run.always_of_each (P := Safe) (C := fun _ _ => True) (fun _ _ _ safe _ moved =>
    safe.step moved) (safe_init documentId) (Run.each_true events)).imp fun _ safe => safe.dropped

/-! ### An operation that is listed before its commit -/

/-- Every stamp that left a queue has a row. -/
def DropsDurably (s : Collaboration) : Prop :=
  ∀ client generation id cause, (client, generation, id, cause) ∈ s.dropped →
    s.server.store.Durable id

/-- Short operations, the usual limits, and no clusters of code points. -/
def plainSettings : Settings := ⟨fun _ => 1, ⟨30000, none⟩, fun _ => false⟩

/-- A client joins and types a character; before the commit starts it loses its socket, opens another
one, and the live engine lists the character. -/
def relisted : List CollaborationEvent :=
  [.connect 0 0, .opened 0, .hello 0 .EDITOR, .handshake 0, .drain 0, .drain 0, .drain 0, .deliver 0,
    .deliver 0, .deliver 0, .gate 0 0, .edit 0 (.localInsert 0 97 none) 0, .receive 0 0 none 0,
    .closed 0 0, .reopen 0, .opened 1, .hello 1 .EDITOR, .handshake 1, .handshake 1, .drain 1,
    .drain 1, .drain 1, .deliver 1, .deliver 1, .deliver 1, .gate 0 0]

/-- The character leaves the queue although the table has no row at all. -/
theorem dropped_early : ¬ ∀ (settings : Settings) (documentId : String)
    (events : List CollaborationEvent),
    Run.Always (step settings) DropsDurably (init documentId) events := by
  intro durably
  obtain ⟨s, ran, checked⟩ := Run.exists_of_ends
    (Run.run (step plainSettings) (init "document") relisted)
    (fun s => decide (s.dropped = [(0, 2, ⟨1, 1⟩, .alreadyHave)]) &&
      s.server.store.operations.isEmpty) (by decide)
  rw [Bool.and_eq_true, decide_eq_true_iff, List.isEmpty_iff] at checked
  obtain ⟨dropped, empty⟩ := checked
  obtain ⟨row, member, -⟩ := (durably plainSettings "document" relisted).last ran 0 2 ⟨1, 1⟩
    .alreadyHave (by simp [dropped])
  rw [empty] at member
  cases member

end Collaboration

end ConfluenceEditor
