/-
Acknowledged operations across crashes.

A server receives messages, commits, writes snapshots in the background and may crash at any moment;
a restart is a warm start from the store. A snapshot carries the reserved sequence number, which may
be ahead of what is durable, so after a crash the numbers up to the snapshot's can be taken by other
operations, and the next restart skips their rows (`acked_hidden`). As long as no restart happens
while the newest snapshot is ahead of the document's number, and no operation lands before the
insert it depends on, every acknowledged operation is part of what a warm start rebuilds
(`acked_survive`).
-/

import ConfluenceEditor.Server.Recovery

namespace ConfluenceEditor

open Engine Coordinator

/-- One document's server process with its store. `received` and `acked` record what the sessions
sent and what was acknowledged to them; they survive a crash because they are the sessions' own. -/
structure Server where
  store : Store
  coordinator : Coordinator
  capturing : List SnapshotRow
  received : List Operation
  acked : List Operation

inductive ServerEvent where
  | receive (session : Nat) (ops : List Operation) (nowMs : Nat)
  | start (i : Nat)
  | land (i : Nat) (committedAtMs : Nat)
  | succeed (i : Nat)
  | fail (i : Nat)
  | capture
  | writeSnapshot (k : Nat)
  | restart
  deriving DecidableEq, Repr

namespace Server

/-- The server of a new document. -/
def init (documentId : String) : Server where
  store := .empty documentId
  coordinator := ⟨Engine.new serverReplicaId, .resume (.empty documentId), fun _ => none⟩
  capturing := []
  received := []
  acked := []

def setQueue (s : Server) (queue : CommitQueue) : Server :=
  { s with coordinator := { s.coordinator with queue } }

/-- The image that `writeSnapshotNow` takes before it writes. -/
def snapshotNow (c : Coordinator) : Except String SnapshotRow := do
  let content ← c.engine.text
  .ok ⟨c.queue.currentSeq, content, c.engine.nodes⟩

/-- The operations of commit `i`, which are acknowledged when it has succeeded. -/
def opsOf (q : CommitQueue) (i : Nat) : List Operation :=
  match q.commits[i]? with
  | some c => c.ops
  | none => []

def step (s : Server) : ServerEvent → Except String Server
  | .receive session ops nowMs => do
      let (c, _) ← processIncomingOperation s.coordinator session ops nowMs
      .ok { s with coordinator := c, received := s.received ++ ops }
  | .start i => do
      let queue ← s.coordinator.queue.start i
      .ok (s.setQueue queue)
  | .land i committedAtMs => do
      let (store, queue) ← s.coordinator.queue.land s.store i committedAtMs
      .ok { s.setQueue queue with store }
  | .succeed i => do
      let queue ← s.coordinator.queue.succeed i
      .ok { s.setQueue queue with acked := s.acked ++ opsOf s.coordinator.queue i }
  | .fail i => do
      let queue ← s.coordinator.queue.fail i
      .ok (s.setQueue queue)
  | .capture => do
      let row ← snapshotNow s.coordinator
      .ok { s with capturing := s.capturing ++ [row] }
  | .writeSnapshot k =>
      match s.capturing[k]? with
      | some row =>
          -- a refused insert is logged and forgotten
          let store := (s.store.writeSnapshot row).getD s.store
          .ok { s with store, capturing := s.capturing.eraseIdx k }
      | none => .error "no such snapshot"
  | .restart => do
      let c ← warmStart s.store
      .ok { s with coordinator := c, capturing := [] }

/-- A warm start would succeed now, and rebuild the outcome of received operations, every
acknowledged one among them. -/
def Survives (s : Server) : Prop :=
  ∃ c full, warmStart s.store = .ok c ∧ Shows c.engine.nodes full ∧
    (∀ op ∈ full, op ∈ s.received) ∧ ∀ op ∈ s.acked, op ∈ full

/-- No restart while the newest snapshot is ahead of the document's number, and no transaction lands
whose operations depend on an insert that is neither logged nor in the newest snapshot. -/
def Sound (s : Server) : ServerEvent → Prop
  | .restart => s.store.snapshotSeq ≤ s.store.currentSeq
  | .land i _ => Prepared (s.store.latestInserts ++ s.store.logged) (opsOf s.coordinator.queue i)
  | _ => True

instance (s : Server) (event : ServerEvent) : Decidable (Sound s event) :=
  match event with
  | .restart => inferInstanceAs (Decidable (_ ≤ _))
  | .land .. => inferInstanceAs (Decidable (Prepared _ _))
  | .receive .. => inferInstanceAs (Decidable True)
  | .start _ => inferInstanceAs (Decidable True)
  | .succeed _ => inferInstanceAs (Decidable True)
  | .fail _ => inferInstanceAs (Decidable True)
  | .capture => inferInstanceAs (Decidable True)
  | .writeSnapshot _ => inferInstanceAs (Decidable True)

/-- The operations of an event. -/
def offered : ServerEvent → List Operation
  | .receive _ ops _ => ops
  | _ => []

/-- The inserts of the nodes of a snapshot. -/
def insertsIn (nodes : List Node) : List InsertOperation := nodes.map Node.toInsert

/-- What a snapshot, written or being written, contains: the effect of every row and every
reservation up to its number. -/
structure Covers (s : Server) (row : SnapshotRow) (full : List Operation) : Prop where
  image : Image row.nodes full
  received : ∀ op ∈ full, op ∈ s.received
  logged : ∀ r ∈ s.store.operations, r.seq ≤ row.seq → r.op ∈ full
  finalized : ∀ seq op, s.coordinator.queue.Finalized seq op → seq ≤ row.seq → op ∈ full
  reserved : row.seq ≤ s.coordinator.queue.currentSeq
  inEngine : ∀ ins ∈ insertsIn row.nodes, ins ∈ insertsIn s.coordinator.engine.nodes

/-- What the engine of the running coordinator accounts for. -/
structure Current (s : Server) (history full : List Operation) : Prop where
  built : Built s.coordinator.engine history
  explains : Explains history full
  received : ∀ op ∈ full, op ∈ s.received
  waiting : ∀ op ∈ s.coordinator.engine.pending, op ∈ s.received
  logged : ∀ op ∈ s.store.logged, op ∈ full
  finalized : ∀ seq op, s.coordinator.queue.Finalized seq op → op ∈ full

structure Invariant (known : List Operation) (s : Server) : Prop where
  distinct : DistinctIds known
  known : ∀ op ∈ s.received, op ∈ known
  wf : s.store.WF
  queue : ∃ base, CommitQueue.Invariant base (s.store, s.coordinator.queue)
  current : ∃ history full, s.Current history full
  covers : ∀ row, row ∈ s.store.snapshots ∨ row ∈ s.capturing → ∃ full, s.Covers row full
  grows : ∀ a b, a ∈ s.store.snapshots ∨ a ∈ s.capturing → b ∈ s.store.snapshots ∨ b ∈ s.capturing →
    a.seq < b.seq → ∀ ins ∈ insertsIn a.nodes, ins ∈ insertsIn b.nodes
  prepared : Prepared s.store.latestInserts s.store.logged
  acked : ∀ op ∈ s.acked, op ∈ s.received ∧ s.store.Durable op.id

theorem invariant_init (documentId : String) {known : List Operation}
    (distinct : DistinctIds known) : (init documentId).Invariant known where
  distinct := distinct
  known := nofun
  wf := Store.wf_empty documentId
  queue := ⟨0, CommitQueue.invariant_resume (.empty documentId) nofun⟩
  current := ⟨[], [], built_new serverReplicaId, .refl [], nofun, nofun, nofun,
    fun _ _ ⟨_, member, _⟩ => (nomatch member)⟩
  covers row member := by simp [init, Store.empty] at member
  grows a b member := by simp [init, Store.empty] at member
  prepared := trivial
  acked := nofun

section

variable {s s' : Server}

/-- A capture reads the text and the nodes of the live engine. -/
theorem capture_ok (moved : step s .capture = .ok s') :
    ∃ content, s.coordinator.engine.text = .ok content ∧
      s' = { s with capturing := s.capturing ++
        [⟨s.coordinator.queue.currentSeq, content, s.coordinator.engine.nodes⟩] } := by
  obtain ⟨row, taken, done⟩ := Throwing.ok_of_bind moved
  obtain rfl := Except.ok.inj done
  obtain ⟨content, text, taken⟩ := Throwing.ok_of_bind taken
  obtain rfl := Except.ok.inj taken
  exact ⟨content, text, rfl⟩

/-- What the write of a snapshot changes, be it refused or not: the snapshot may join the stored
ones. -/
structure SnapshotWritten (s : Server) (store : Store) (capturing : List SnapshotRow) : Prop where
  operations : store.operations = s.store.operations
  wf : s.store.WF → store.WF
  kept : ∀ r ∈ s.store.snapshots, r ∈ store.snapshots
  known : ∀ r, r ∈ store.snapshots ∨ r ∈ capturing → r ∈ s.store.snapshots ∨ r ∈ s.capturing

theorem writeSnapshot_ok {k : Nat} (moved : step s (.writeSnapshot k) = .ok s') :
    ∃ store capturing, s' = { s with store, capturing } ∧ SnapshotWritten s store capturing := by
  simp only [step] at moved
  split at moved
  case h_2 => cases moved
  rename_i row entry
  obtain rfl := Except.ok.inj moved
  refine ⟨_, _, rfl, ?_⟩
  have wasCapturing : row ∈ s.capturing := List.mem_of_getElem? entry
  cases written : s.store.writeSnapshot row with
  | none =>
      refine ⟨rfl, id, fun _ => id, fun r member => ?_⟩
      exact member.imp_right List.mem_of_mem_eraseIdx
  | some store =>
      obtain ⟨-, operations, -, wf⟩ := Store.writeSnapshot_spec written
      have members := Store.mem_writeSnapshot written
      refine ⟨operations, wf, fun r old => (members r).mpr (Or.inr old), fun r member => ?_⟩
      rcases member with stored | listed
      · rcases (members r).mp stored with rfl | old
        · exact Or.inr wasCapturing
        · exact Or.inl old
      · exact Or.inr (List.mem_of_mem_eraseIdx listed)

end

namespace Invariant

variable {known : List Operation} {s s' : Server}

theorem latestSnapshot_mem {store : Store} {row : SnapshotRow}
    (latest : store.latestSnapshot = some row) : row ∈ store.snapshots :=
  List.mem_of_mem_head? latest

/-- The store of a reachable server is recoverable. -/
theorem recoverable (invariant : s.Invariant known) : Recoverable s.store s.received := by
  obtain ⟨history, full, current⟩ := invariant.current
  refine ⟨invariant.wf, invariant.distinct.subset invariant.known, fun op member =>
    current.received op (current.logged op member), invariant.prepared, fun row latest => ?_⟩
  obtain ⟨image, covers⟩ := invariant.covers row (Or.inl (latestSnapshot_mem latest))
  exact ⟨image, covers.image, covers.received, covers.logged⟩

/-- Hence every acknowledged operation survives. -/
theorem survives (invariant : s.Invariant known) : s.Survives := by
  obtain ⟨c, history, full, started, received, recovered⟩ := warmStart_spec invariant.recoverable
  refine ⟨c, full, started, recovered.built.shows recovered.explains, received, fun op member => ?_⟩
  obtain ⟨wasReceived, row, logged, same⟩ := invariant.acked op member
  have inFull : row.op ∈ full := recovered.logged _ (List.mem_map_of_mem logged)
  rwa [← invariant.distinct row.op (invariant.known _ (received _ inFull)) op
    (invariant.known op wasReceived) same]

/-! ### One event -/

/-- The commit queue moves on without touching the store. -/
theorem setQueue {queue : CommitQueue} {event : CommitQueue.Event} {acked : List Operation}
    (invariant : s.Invariant known)
    (moved : CommitQueue.step (s.store, s.coordinator.queue) event = .ok (s.store, queue))
    (settled : ∀ origin ops, event ≠ .enqueue origin ops)
    (acks : ∀ op ∈ acked, op ∈ s.received ∧ s.store.Durable op.id) :
    Invariant known { s.setQueue queue with acked } := by
  obtain ⟨history, full, current⟩ := invariant.current
  obtain ⟨base, inv⟩ := invariant.queue
  obtain ⟨reserved, finalized⟩ := CommitQueue.reserved_of_step moved settled
  refine ⟨invariant.distinct, invariant.known, invariant.wf, ⟨base, inv.step moved⟩,
    ⟨history, full, current.built, current.explains, current.received, current.waiting,
      current.logged, fun seq op member => current.finalized seq op (finalized seq op member)⟩,
    fun row member => ?_, invariant.grows, invariant.prepared, acks⟩
  obtain ⟨image, covers⟩ := invariant.covers row member
  exact ⟨image, covers.image, covers.received, covers.logged, fun seq op member =>
    covers.finalized seq op (finalized seq op member), by
      rw [Server.setQueue, reserved]; exact covers.reserved, covers.inEngine⟩

theorem start (invariant : s.Invariant known) {i : Nat} (moved : step s (.start i) = .ok s') :
    s'.Invariant known := by
  simp only [step] at moved
  cases started : s.coordinator.queue.start i with
  | error reason => rw [started] at moved; cases moved
  | ok queue =>
      rw [started] at moved
      obtain rfl := Except.ok.inj moved
      have event : CommitQueue.step (s.store, s.coordinator.queue) (.start i) =
          .ok (s.store, queue) := by
        rw [CommitQueue.step, started]
        rfl
      exact invariant.setQueue event (by rintro _ _ ⟨⟩) invariant.acked

theorem fail (invariant : s.Invariant known) {i : Nat} (moved : step s (.fail i) = .ok s') :
    s'.Invariant known := by
  simp only [step] at moved
  cases failed : s.coordinator.queue.fail i with
  | error reason => rw [failed] at moved; cases moved
  | ok queue =>
      rw [failed] at moved
      obtain rfl := Except.ok.inj moved
      have event : CommitQueue.step (s.store, s.coordinator.queue) (.fail i) =
          .ok (s.store, queue) := by
        rw [CommitQueue.step, failed]
        rfl
      exact invariant.setQueue event (by rintro _ _ ⟨⟩) invariant.acked

/-- What is acknowledged has landed. -/
theorem succeed (invariant : s.Invariant known) {i : Nat} (moved : step s (.succeed i) = .ok s') :
    s'.Invariant known := by
  simp only [step] at moved
  cases fulfilled : s.coordinator.queue.succeed i with
  | error reason => rw [fulfilled] at moved; cases moved
  | ok queue =>
      rw [fulfilled] at moved
      obtain rfl := Except.ok.inj moved
      have event : CommitQueue.step (s.store, s.coordinator.queue) (.succeed i) =
          .ok (s.store, queue) := by rw [CommitQueue.step, fulfilled]; rfl
      refine invariant.setQueue event (by rintro _ _ ⟨⟩) fun op member => ?_
      rcases List.mem_append.mp member with old | new
      · exact invariant.acked op old
      · obtain ⟨base, inv⟩ := invariant.queue
        obtain ⟨history, full, current⟩ := invariant.current
        unfold CommitQueue.succeed at fulfilled
        unfold opsOf at new
        split at fulfilled
        · rename_i c entry
          split_ifs at fulfilled with landed
          rw [entry] at new
          have inCommits := List.mem_of_getElem? entry
          obtain ⟨k, named⟩ := List.getElem?_of_mem new
          exact ⟨current.received op (current.finalized _ op ⟨c, inCommits, k, named, rfl⟩),
            inv.durable c inCommits (Or.inl landed) op new⟩
        · cases fulfilled

/-- The rows that a transaction adds find their dependencies, whatever duplicates were skipped. -/
theorem prepared_insertAll {base : List Operation} (committedAtMs : Nat)
    (distinct : DistinctIds known) (ops : List Operation) (store : Store) (seq : Nat)
    (below : ∀ row ∈ store.operations, row.seq < seq) (logged : ∀ op ∈ store.logged, op ∈ known)
    (inside : ∀ op ∈ ops, op ∈ known) (prepared : Prepared base store.logged)
    (next : Prepared (base ++ store.logged) ops) :
    Prepared base (store.insertAll seq committedAtMs ops).2.logged := by
  induction ops generalizing store seq with
  | nil => exact prepared
  | cons op ops ih =>
      have rest : ∀ x ∈ ops, x ∈ known := fun x member => inside x (List.mem_cons_of_mem _ member)
      obtain ⟨met, next⟩ := next
      rw [Store.insertAll]
      rcases Store.insertOperation_cases ⟨seq, op, committedAtMs⟩ below with
        ⟨⟨r, taken, same⟩, refused⟩ | ⟨-, inserted⟩
      · -- the stamp is taken, so the operation itself is in the log
        rw [refused]
        have inLog : op ∈ store.logged := by
          rw [← distinct r.op (logged _ (List.mem_map_of_mem taken)) op
            (inside op List.mem_cons_self) same]
          exact List.mem_map_of_mem taken
        refine ih store (seq + 1) (fun row member => Nat.lt_succ_of_lt (below row member)) logged rest
          prepared (next.mono fun ins member => ?_)
        rcases List.mem_append.mp member with old | new
        · exact old
        · rw [List.mem_singleton.mp new]
          exact List.mem_append_right _ inLog
      · rw [inserted]
        have logged' : { store with
            operations := store.operations ++ [⟨seq, op, committedAtMs⟩] : Store }.logged =
            store.logged ++ [op] := by simp [Store.logged]
        refine ih _ (seq + 1) (fun row member => ?_) (fun x member => ?_) rest ?_ ?_
        · rcases List.mem_append.mp member with old | last
          · exact Nat.lt_succ_of_lt (below row old)
          · rw [List.mem_singleton.mp last]
            exact Nat.lt_succ_self seq
        · rw [logged'] at member
          rcases List.mem_append.mp member with old | last
          · exact logged x old
          · rw [List.mem_singleton.mp last]
            exact inside op List.mem_cons_self
        · rw [logged', prepared_append]
          exact ⟨prepared, met, trivial⟩
        · rw [logged', ← List.append_assoc]
          exact next

theorem land (invariant : s.Invariant known) {i now : Nat} (sound : s.Sound (.land i now))
    (moved : step s (.land i now) = .ok s') : s'.Invariant known := by
  simp only [step] at moved
  cases committed : s.coordinator.queue.land s.store i now with
  | error reason => rw [committed] at moved; cases moved
  | ok outcome =>
      obtain ⟨store, queue⟩ := outcome
      rw [committed] at moved
      obtain rfl := Except.ok.inj moved
      obtain ⟨base, inv⟩ := invariant.queue
      obtain ⟨history, full, current⟩ := invariant.current
      have event : CommitQueue.step (s.store, s.coordinator.queue) (.land i now) =
          .ok (store, queue) := by rw [CommitQueue.step, committed]
      obtain ⟨reserved, finalized⟩ := CommitQueue.reserved_of_step event (by rintro _ _ ⟨⟩)
      obtain ⟨c, entry, running, rfl, -⟩ := CommitQueue.land_cases committed
      have inCommits := List.mem_of_getElem? entry
      have nonempty := inv.nonempty c inCommits
      have below := inv.below entry running
      obtain ⟨new, spec, number⟩ := s.store.commitOperations_spec c.startSeq now c.ops nonempty below
      have positive : 0 < c.startSeq := Nat.lt_of_le_of_lt (Nat.zero_le _) (inv.range c inCommits).1
      have reservedOp : ∀ row ∈ new,
          s.coordinator.queue.Finalized row.seq row.op := fun row member => by
        obtain ⟨k, named, place⟩ := spec.place row member
        exact ⟨c, inCommits, k, named, place⟩
      have latest : (s.store.commitOperations c.startSeq c.ops now).2.latestInserts =
          s.store.latestInserts := by
        rw [Store.latestInserts, Store.latestSnapshot, spec.snapshots]
        rfl
      refine ⟨invariant.distinct, invariant.known, spec.wf invariant.wf below positive number,
        ⟨base, inv.step event⟩, ⟨history, full, current.built, current.explains, current.received,
          current.waiting, fun op member => ?_, fun seq op member =>
          current.finalized seq op (finalized seq op member)⟩, fun row member => ?_,
        fun a b inA inB => ?_, ?_, fun op member => ?_⟩
      · obtain ⟨row, inside, rfl⟩ := List.mem_map.mp member
        simp only [spec.operations] at inside
        rcases List.mem_append.mp inside with old | added
        · exact current.logged _ (List.mem_map_of_mem old)
        · exact current.finalized _ _ (reservedOp row added)
      · simp only [spec.snapshots] at member
        obtain ⟨image, covers⟩ := invariant.covers row member
        refine ⟨image, covers.image, covers.received, fun r inside low => ?_, fun seq op member =>
          covers.finalized seq op (finalized seq op member), ?_, covers.inEngine⟩
        · simp only [spec.operations] at inside
          rcases List.mem_append.mp inside with old | added
          · exact covers.logged r old low
          · exact covers.finalized _ _ (reservedOp r added) low
        · simp only [Server.setQueue, reserved]
          exact covers.reserved
      · simp only [spec.snapshots] at inA inB
        exact invariant.grows a b inA inB
      · simp only
        rw [latest, Store.commitOperations, if_neg nonempty]
        refine prepared_insertAll now invariant.distinct c.ops s.store c.startSeq below
          (fun op member => invariant.known op (current.received op (current.logged op member)))
          (fun op member => ?_) invariant.prepared ?_
        · obtain ⟨k, named⟩ := List.getElem?_of_mem member
          exact invariant.known op (current.received op
            (current.finalized _ op ⟨c, inCommits, k, named, rfl⟩))
        · simpa [Sound, opsOf, entry] using sound
      · exact ⟨(invariant.acked op member).1, spec.durable_mono _ (invariant.acked op member).2⟩

/-- The inserts of an engine that has grown. -/
theorem insertsIn_mono {e e' : Engine} {history later : List Operation} (built : Built e history)
    (built' : Built e' (history ++ later)) :
    ∀ ins ∈ insertsIn e.nodes, ins ∈ insertsIn e'.nodes := by
  intro ins member
  rw [insertsIn, built.nodes_eq, built.inserts] at member
  rw [insertsIn, built'.nodes_eq, built'.inserts]
  exact List.mem_append_left _ member

theorem receive (invariant : s.Invariant known) {session now : Nat} {ops : List Operation}
    (minted : ∀ op ∈ ops, op ∈ known) (moved : step s (.receive session ops now) = .ok s') :
    s'.Invariant known := by
  obtain ⟨history, full, current⟩ := invariant.current
  obtain ⟨c, relays, applied, batches, done, ingested⟩ :=
    processIncomingOperation_spec current.built session now ops
  simp only [step, done] at moved
  obtain rfl := Except.ok.inj moved
  have absorbed := ingested.absorbed
  have offered : ∀ op ∈ s.coordinator.engine.pending ++ ops, op ∈ s.received ++ ops :=
    fun op member => by
      rcases List.mem_append.mp member with waiting | new
      · exact List.mem_append_left _ (current.waiting op waiting)
      · exact List.mem_append_right _ new
  have allKnown : ∀ op ∈ s.received ++ ops, op ∈ known := fun op member => by
    rcases List.mem_append.mp member with old | new
    · exact invariant.known op old
    · exact minted op new
  have received : ∀ op ∈ full ++ applied, op ∈ s.received ++ ops := fun op member => by
    rcases List.mem_append.mp member with old | new
    · exact List.mem_append_left _ (current.received op old)
    · exact offered op (absorbed.appliedFrom op new)
  have explains := current.explains.append applied
  -- what is finalized has been applied
  have batched : ∀ batch ∈ batches, ∀ op ∈ batch.2, op ∈ full ++ applied := by
    intro batch inside op member
    refine explains.subset op ((absorbed.built.hasApplied_iff_mem
      (invariant.distinct.subset allKnown) (fun x member => received x (explains.subset x member))
      (offered op (ingested.offered batch inside op member))).mp
      (ingested.finalized batch inside op member))
  have finalized : ∀ seq op, c.queue.Finalized seq op → s.coordinator.queue.Finalized seq op ∨
      s.coordinator.queue.currentSeq < seq ∧ op ∈ full ++ applied := by
    intro seq op member
    rw [ingested.queue] at member
    rcases CommitQueue.finalized_enqueueAll member with old | ⟨above, batch, inside, own⟩
    · exact Or.inl old
    · exact Or.inr ⟨above, batched batch inside op own⟩
  obtain ⟨base, inv⟩ := invariant.queue
  refine ⟨invariant.distinct, allKnown, invariant.wf, ⟨base, ?_⟩, ⟨history ++ applied,
    full ++ applied, absorbed.built, explains, received, fun op member =>
    offered op (absorbed.pendingFrom.subset member), fun op member =>
    List.mem_append_left _ (current.logged op member), fun seq op member => ?_⟩,
    fun row member => ?_, invariant.grows, invariant.prepared, fun op member =>
    ⟨List.mem_append_left _ (invariant.acked op member).1, (invariant.acked op member).2⟩⟩
  · simp only [ingested.queue]
    exact inv.enqueueAll ingested.nonempty
  · rcases finalized seq op member with old | ⟨-, new⟩
    · exact List.mem_append_left _ (current.finalized seq op old)
    · exact new
  · obtain ⟨image, covers⟩ := invariant.covers row member
    refine ⟨image, covers.image, fun op inside => List.mem_append_left _ (covers.received op inside),
      covers.logged, fun seq op inside low => ?_, ?_, fun ins inside =>
      insertsIn_mono current.built absorbed.built ins (covers.inEngine ins inside)⟩
    · rcases finalized seq op inside with old | ⟨above, -⟩
      · exact covers.finalized seq op old low
      · have := covers.reserved
        omega
    · simp only [ingested.queue]
      exact le_trans covers.reserved (CommitQueue.currentSeq_enqueueAll _ _)

theorem capture (invariant : s.Invariant known) (moved : step s .capture = .ok s') :
    s'.Invariant known := by
  obtain ⟨history, full, current⟩ := invariant.current
  obtain ⟨content, -, rfl⟩ := capture_ok moved
  set row : SnapshotRow :=
    ⟨s.coordinator.queue.currentSeq, content, s.coordinator.engine.nodes⟩
  have cases' : ∀ r, r ∈ s.store.snapshots ∨ r ∈ s.capturing ++ [row] →
      (r ∈ s.store.snapshots ∨ r ∈ s.capturing) ∨ r = row := fun r member => by
    rcases member with stored | listed
    · exact Or.inl (Or.inl stored)
    · rcases List.mem_append.mp listed with old | new
      · exact Or.inl (Or.inr old)
      · exact Or.inr (List.mem_singleton.mp new)
  refine ⟨invariant.distinct, invariant.known, invariant.wf, invariant.queue,
    ⟨history, full, current.built, current.explains, current.received, current.waiting,
      current.logged, current.finalized⟩, fun r member => ?_, fun a b inA inB less => ?_,
    invariant.prepared, invariant.acked⟩
  · rcases cases' r member with old | rfl
    · obtain ⟨image, covers⟩ := invariant.covers r old
      exact ⟨image, covers.image, covers.received, covers.logged, covers.finalized,
        covers.reserved, covers.inEngine⟩
    · exact ⟨full, ⟨_, history, current.built, rfl, current.explains⟩, current.received,
        fun r inside _ => current.logged _ (List.mem_map_of_mem inside),
        fun seq op member _ => current.finalized seq op member, le_refl _,
        fun ins inside => inside⟩
  · rcases cases' a inA with oldA | rfl
    · rcases cases' b inB with oldB | rfl
      · exact invariant.grows a b oldA oldB less
      · obtain ⟨_, covers⟩ := invariant.covers a oldA
        exact covers.inEngine
    · rcases cases' b inB with oldB | rfl
      · obtain ⟨_, covers⟩ := invariant.covers b oldB
        exact absurd less (Nat.not_lt_of_le covers.reserved)
      · exact absurd less (Nat.lt_irrefl _)

theorem writeSnapshot (invariant : s.Invariant known) {k : Nat}
    (moved : step s (.writeSnapshot k) = .ok s') : s'.Invariant known := by
  obtain ⟨store, capturing, rfl, written⟩ := writeSnapshot_ok moved
  have wf := written.wf invariant.wf
  -- a newer latest snapshot contains the inserts of the one before
  have grown : ∀ ins : InsertOperation, .insert ins ∈ s.store.latestInserts →
      .insert ins ∈ store.latestInserts := by
    intro ins member
    cases latest : s.store.latestSnapshot with
    | none =>
        rw [Store.latestInserts, latest] at member
        cases member
    | some first =>
        have inOld := latestSnapshot_mem latest
        obtain ⟨first', latest', order⟩ := wf.le_snapshotSeq (written.kept first inOld)
        rw [Store.latestInserts, latest] at member
        rw [Store.latestInserts, latest']
        obtain ⟨n, inNodes, named⟩ := List.mem_map.mp member
        have inserts : ins ∈ insertsIn first.nodes := by
          rw [← Operation.insert.inj named]
          exact List.mem_map_of_mem inNodes
        have inserts' : ins ∈ insertsIn first'.nodes := by
          rcases order with rfl | less
          · exact inserts
          · exact invariant.grows first first' (Or.inl inOld)
              (written.known first' (Or.inl (latestSnapshot_mem latest'))) less ins inserts
        obtain ⟨n', inNodes', rfl⟩ := List.mem_map.mp inserts'
        exact List.mem_map.mpr ⟨n', inNodes', rfl⟩
  have logged : store.logged = s.store.logged := by
    rw [Store.logged, written.operations]
    rfl
  obtain ⟨base, inv⟩ := invariant.queue
  obtain ⟨history, full, current⟩ := invariant.current
  refine ⟨invariant.distinct, invariant.known, wf, ⟨base, inv.congr_store written.operations⟩,
    ⟨history, full, current.built, current.explains, current.received, current.waiting,
      fun op member => current.logged op (by rwa [logged] at member), current.finalized⟩,
    fun r member => ?_, fun a b inA inB =>
      invariant.grows a b (written.known a inA) (written.known b inB), ?_, fun op member => ?_⟩
  · obtain ⟨image, covers⟩ := invariant.covers r (written.known r member)
    exact ⟨image, covers.image, covers.received, fun r' inside => covers.logged r' (by
      rwa [written.operations] at inside), covers.finalized, covers.reserved, covers.inEngine⟩
  · simp only [logged]
    exact invariant.prepared.mono grown
  · obtain ⟨received, r, inside, named⟩ := invariant.acked op member
    exact ⟨received, r, by simpa only [written.operations] using inside, named⟩

theorem restart (invariant : s.Invariant known) (sound : s.Sound .restart)
    (moved : step s .restart = .ok s') : s'.Invariant known := by
  obtain ⟨c, history, full, started, received, recovered⟩ := warmStart_spec invariant.recoverable
  simp only [step, started] at moved
  obtain rfl := Except.ok.inj moved
  have queue := recovered.queue
  have nothing : ∀ seq op, ¬ c.queue.Finalized seq op := by
    rintro seq op ⟨d, member, -⟩
    rw [queue] at member
    cases member
  refine ⟨invariant.distinct, invariant.known, invariant.wf, ⟨s.store.currentSeq, ?_⟩,
    ⟨history, full, recovered.built, recovered.explains, received, fun op member => ?_,
      recovered.logged, fun seq op member => absurd member (nothing seq op)⟩, fun row member => ?_,
    fun a b inA inB => ?_, invariant.prepared, invariant.acked⟩
  · simp only [queue]
    exact CommitQueue.invariant_resume s.store fun row member => (invariant.wf.numbered row member).2
  · simp only [recovered.empty] at member
    cases member
  · simp only [List.not_mem_nil, or_false] at member
    obtain ⟨image, covers⟩ := invariant.covers row (Or.inl member)
    obtain ⟨latest, first, order⟩ := invariant.wf.le_snapshotSeq member
    have low : latest.seq ≤ s.store.currentSeq := by
      simpa [Sound, Store.snapshotSeq, first] using sound
    refine ⟨image, covers.image, covers.received, covers.logged, fun seq op member =>
      absurd member (nothing seq op), ?_, fun ins inside => ?_⟩
    · simp only [queue, CommitQueue.resume]
      rcases order with rfl | less
      · exact low
      · omega
    · have inLatest : ins ∈ insertsIn latest.nodes := by
        rcases order with rfl | less
        · exact inside
        · exact invariant.grows row latest (Or.inl member) (Or.inl (latestSnapshot_mem first)) less
            ins inside
      obtain ⟨n, inNodes, rfl⟩ := List.mem_map.mp inLatest
      have known : Operation.insert n.toInsert ∈ history := recovered.inserts _ (by
        rw [Store.latestInserts, first]
        exact List.mem_map.mpr ⟨n, inNodes, rfl⟩)
      simp only [insertsIn]
      rwa [recovered.built.nodes_eq, recovered.built.inserts]
  · simp only [List.not_mem_nil, or_false] at inA inB
    exact invariant.grows a b (Or.inl inA) (Or.inl inB)

/-- Every sound event keeps the invariant. -/
theorem step (invariant : s.Invariant known) {event : ServerEvent} (sound : s.Sound event)
    (minted : ∀ op ∈ offered event, op ∈ known) (moved : Server.step s event = .ok s') :
    s'.Invariant known := by
  cases event with
  | receive session ops now => exact invariant.receive minted moved
  | start i => exact invariant.start moved
  | land i now => exact invariant.land sound moved
  | succeed i => exact invariant.succeed moved
  | fail i => exact invariant.fail moved
  | capture => exact invariant.capture moved
  | writeSnapshot k => exact invariant.writeSnapshot moved
  | restart => exact invariant.restart sound moved

end Invariant

/-- Three characters: two by session 1, one after the other, and one by session 2. -/
def firstTyped : InsertOperation := ⟨⟨1, 1⟩, 97, none, .R, false⟩

def secondTyped : InsertOperation := ⟨⟨2, 1⟩, 98, some ⟨1, 1⟩, .R, false⟩

def typedLater : InsertOperation := ⟨⟨2, 2⟩, 99, some ⟨1, 1⟩, .R, false⟩

/-- A character is committed, the image of the document is stored, and the server crashes. -/
def preserved : List ServerEvent :=
  [.receive 1 [.insert firstTyped] 0, .start 0, .land 0 0, .succeed 0, .capture, .writeSnapshot 0,
    .restart]

/-- The image is taken while the second character is not durable yet; after the crash its number
goes to a third one, which is committed and acknowledged. -/
def hidden : List ServerEvent :=
  [.receive 1 [.insert firstTyped] 0, .start 0, .land 0 0, .succeed 0,
    .receive 1 [.insert secondTyped] 0, .capture, .writeSnapshot 0, .restart,
    .receive 2 [.insert typedLater] 0, .start 0, .land 0 0, .succeed 0]

end Server

end ConfluenceEditor
