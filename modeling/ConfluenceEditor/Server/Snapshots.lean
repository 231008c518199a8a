/-
Stored snapshots against a replay of the rows through their number.

A snapshot is taken from the live engine, which has applied operations whose commits are still under
way and may fail; then the rows through the snapshot's number do not give its text, and the audit
reports a mismatch although nothing is corrupt (`snapshots_unbacked`). A snapshot stays right as long
as the rows that its number still stands for represent what was finalized up to it: when it is
taken, and whenever a commit fails afterwards (`snapshots_replay`).
-/

import ConfluenceEditor.Replication.Reordered
import ConfluenceEditor.Server.LiveReplay
import ConfluenceEditor.Server.LogRebuild

namespace ConfluenceEditor

open Engine Coordinator

/-! ### The rows to come -/

namespace CommitQueue

/-- The numbered operations of the commits that may still land. -/
def awaited (q : CommitQueue) : List (Nat × Operation) :=
  (q.commits.filter fun c => c.phase.waiting).flatMap Commit.numbers

variable {q : CommitQueue} {i : Nat} {c : Commit}

theorem awaited_setPhase {phase : CommitPhase} (entry : q.commits[i]? = some c)
    (same : phase.waiting = c.phase.waiting) : (q.setPhase i phase).awaited = q.awaited := by
  obtain ⟨before, after, split, -, modified, -⟩ := exists_around entry fun c => { c with phase }
  rw [awaited, awaited, setPhase, modified, split, List.filter_append, List.filter_append,
    List.filter_cons, List.filter_cons]
  simp only [same]
  by_cases waits : c.phase.waiting = true
  · rw [if_pos waits, if_pos waits, List.flatMap_append, List.flatMap_append, List.flatMap_cons,
      List.flatMap_cons]
    rfl
  · rw [if_neg waits, if_neg waits]

/-- The running commit is the first one that may still land. -/
theorem awaited_running {phase : CommitPhase} (ordered : q.InOrder) (entry : q.commits[i]? = some c)
    (running : c.phase = .running) (finished : phase.waiting = false) :
    q.awaited = c.numbers ++ (q.setPhase i phase).awaited := by
  obtain ⟨before, after, split, length, modified, -⟩ := exists_around entry fun c => { c with phase }
  have done : before.filter (fun d => d.phase.waiting) = [] := by
    rw [List.filter_eq_nil_iff]
    intro d member
    obtain ⟨j, at?⟩ := List.getElem?_of_mem member
    have inside := (List.getElem?_eq_some_iff.mp at?).1
    have earlier : q.commits[j]? = some d := by rw [split, List.getElem?_append_left inside, at?]
    have settled := (ordered j i d c (by omega) earlier entry).2 (by rw [running]; nofun)
    cases phase : d.phase <;> simp_all [CommitPhase.waiting, CommitPhase.settled]
  have waits : c.phase.waiting = true := by rw [running]; rfl
  rw [awaited, awaited, setPhase, modified, split, List.filter_append, List.filter_append, done,
    List.filter_cons_of_pos (by simpa using waits), List.filter_cons_of_neg (by simp [finished]),
    List.nil_append, List.nil_append, List.flatMap_cons]

/-- A message only adds numbers above the reserved ones. -/
theorem awaited_enqueueAll (q : CommitQueue) (batches : List (Nat × List Operation)) :
    ∃ later, (q.enqueueAll batches).awaited = q.awaited ++ later ∧
      ∀ row ∈ later, q.currentSeq < row.1 := by
  induction batches generalizing q with
  | nil => exact ⟨[], (List.append_nil _).symm, nofun⟩
  | cons batch batches ih =>
      obtain ⟨later, same, above⟩ := ih (q.enqueueCommit batch.1 batch.2)
      have first : (q.enqueueCommit batch.1 batch.2).awaited =
          q.awaited ++ numberedFrom (q.currentSeq + 1) batch.2 := by
        simp [awaited, CommitQueue.enqueueCommit, CommitPhase.waiting, Commit.numbers]
      refine ⟨numberedFrom (q.currentSeq + 1) batch.2 ++ later, ?_, fun row member => ?_⟩
      · rw [← List.append_assoc, ← first]
        exact same
      · rcases List.mem_append.mp member with here | further
        · exact (numberedFrom_bounds here).1
        · exact lt_of_le_of_lt (Nat.le_add_right ..) (above row further)

/-- The numbers of a commit are positions in the finalized operations. -/
theorem Consecutive.numbers_sub (consecutive : q.Consecutive) (member : c ∈ q.commits) :
    ∀ row ∈ c.numbers, row ∈ numberedFrom 1 q.finalizedOps := by
  intro row inside
  obtain ⟨i, entry⟩ := List.getElem?_of_mem member
  have whole : q.finalizedOps = (q.commits.take i).flatMap Commit.ops ++
      (c.ops ++ (q.commits.drop (i + 1)).flatMap Commit.ops) := by
    obtain ⟨below, same⟩ := List.getElem?_eq_some_iff.mp entry
    rw [finalizedOps, ← List.flatMap_cons, ← same, List.getElem_cons_drop, ← List.flatMap_append,
      List.take_append_drop]
  rw [Commit.numbers, consecutive.numbered i c entry, Nat.add_comm] at inside
  rw [whole, numberedFrom_append, numberedFrom_append]
  exact List.mem_append_right _ (List.mem_append_left _ inside)

end CommitQueue

/-- No stamp gets two rows. -/
theorem nodup_foldl_insertRow {rows new : List (Nat × Operation)}
    (nodup : (rows.map fun row => row.2.id).Nodup) :
    ((new.foldl insertRow rows).map fun row => row.2.id).Nodup := by
  induction new generalizing rows with
  | nil => exact nodup
  | cons row new ih =>
      rw [List.foldl_cons]
      apply ih
      unfold insertRow
      split_ifs with taken
      · exact nodup
      · rw [List.map_append, List.nodup_append]
        refine ⟨nodup, List.nodup_singleton _, ?_⟩
        intro id old id' here same
        obtain ⟨r, member, rfl⟩ := List.mem_map.mp old
        rw [List.map_singleton, List.mem_singleton] at here
        refine taken (List.any_eq_true.mpr ⟨r, member, ?_⟩)
        simp [same, here]

theorem foldl_insertRow_sub (rows new : List (Nat × Operation)) :
    ∀ row ∈ new.foldl insertRow rows, row ∈ rows ∨ row ∈ new := by
  induction new generalizing rows with
  | nil => exact fun row member => Or.inl member
  | cons first new ih =>
      intro row member
      rw [List.foldl_cons] at member
      rcases ih (insertRow rows first) row member with old | later
      · unfold insertRow at old
        split_ifs at old
        · exact Or.inl old
        · rcases List.mem_append.mp old with known | here
          · exact Or.inl known
          · rw [List.mem_singleton.mp here]
            exact Or.inr List.mem_cons_self
      · exact Or.inr (List.mem_cons_of_mem _ later)

/-- Rows above a number do not count up to it. -/
theorem filter_foldl_insertRow_above (rows : List (Nat × Operation)) {new : List (Nat × Operation)}
    {seq : Nat} (above : ∀ row ∈ new, seq < row.1) :
    (new.foldl insertRow rows).filter (fun row => decide (row.1 ≤ seq)) =
      rows.filter fun row => decide (row.1 ≤ seq) := by
  induction new generalizing rows with
  | nil => rfl
  | cons row new ih =>
      rw [List.foldl_cons, ih _ fun r member => above r (List.mem_cons_of_mem _ member), insertRow]
      have high := above row List.mem_cons_self
      split_ifs
      · rfl
      · rw [List.filter_append, List.filter_cons_of_neg (by simpa using high), List.filter_nil,
          List.append_nil]

theorem takeWhile_eq_filter {rows : List (Nat × Operation)} (seq : Nat)
    (ascending : rows.Pairwise fun a b => a.1 < b.1) :
    rows.takeWhile (fun row => row.1 ≤ seq) = rows.filter fun row => decide (row.1 ≤ seq) := by
  induction rows with
  | nil => rfl
  | cons row rows ih =>
      obtain ⟨first, rest⟩ := List.pairwise_cons.mp ascending
      by_cases low : row.1 ≤ seq
      · rw [List.takeWhile_cons_of_pos (by simpa using low), List.filter_cons_of_pos (by simpa using low),
          ih rest]
      · rw [List.takeWhile_cons_of_neg (by simpa using low), List.filter_cons_of_neg (by simpa using low)]
        refine (List.filter_eq_nil_iff.mpr fun r member => ?_).symm
        have above := first r member
        simp only [decide_eq_true_eq]
        omega

namespace Server

/-- The rows up to a number, when every commit that may still land lands. -/
def rowsThrough (s : Server) (seq : Nat) : List (Nat × Operation) :=
  (s.coordinator.queue.awaited.foldl insertRow s.store.loadFullOperationLogWithSeq).filter
    fun row => decide (row.1 ≤ seq)

/-- The rows are those of the finalized operations, as if no commit had failed, or at least have
each of these operations and treat the disputed nodes as they do. -/
def Represents (rows : List (Nat × Operation)) (ops : List Operation) : Prop :=
  rows = logRows ops ∨ Rearranges (rows.map Prod.snd) ((logRows ops).map Prod.snd)

/-- When a snapshot is taken, the rows represent what is finalized; when a commit fails, those that
are left up to the number of a snapshot still represent what was finalized up to it. No message is
tangled. -/
def KeepsImages (s : Server) : ServerEvent → Prop
  | .receive _ ops _ => Untangled s.coordinator.engine ops
  | .fail i => ∀ queue, s.coordinator.queue.fail i = .ok queue →
      ∀ row, row ∈ s.store.snapshots ∨ row ∈ s.capturing →
        Represents ((s.setQueue queue).rowsThrough row.seq)
          (s.coordinator.queue.finalizedOps.take row.seq)
  | .capture => Represents (s.rowsThrough s.coordinator.queue.currentSeq)
      s.coordinator.queue.finalizedOps
  | _ => True

/-- Once all commits have settled, the rows through the number of a snapshot replay to its text, and
the audit finds no mismatch. -/
def SnapshotsReplay (s : Server) : Prop :=
  (∀ c ∈ s.coordinator.queue.commits, c.phase.settled = true) →
    (∀ row ∈ s.store.snapshots, ∃ e,
      replayThrough s.store.loadFullOperationLogWithSeq row.seq = .ok e ∧ e.text = .ok row.content) ∧
    auditDocument s.store none ≠ .ok .mismatch

/-- A replay of the rows of the operations gives the content. -/
def Pictured (ops : List Operation) (content : List Nat) : Prop :=
  ∃ log replayed, (Engine.new 0).applyAll ((logRows ops).map Prod.snd) = .ok log ∧
    Built log replayed ∧ (∀ op, op ∈ (logRows ops).map Prod.snd ↔ op ∈ replayed) ∧
    (∀ target, dotOf ((logRows ops).map Prod.snd) target = dotOf replayed target) ∧
    log.text = .ok content

/-- What relates the snapshots to the rows, whatever fails. -/
structure Imaged (known : List Operation) (s : Server) (history : List Operation) : Prop where
  accounted : s.Accounted known history
  dots : ∀ target, dotOf ((logRows s.coordinator.queue.finalizedOps).map Prod.snd) target =
    dotOf history target
  queue : CommitQueue.Invariant 0 (s.store, s.coordinator.queue)
  consecutive : s.coordinator.queue.Consecutive
  wf : s.store.WF
  rows : ∀ row ∈ s.store.loadFullOperationLogWithSeq,
    row ∈ numberedFrom 1 s.coordinator.queue.finalizedOps
  snapshots : ∀ row, row ∈ s.store.snapshots ∨ row ∈ s.capturing →
    row.seq ≤ s.coordinator.queue.finalizedOps.length ∧
      Pictured (s.coordinator.queue.finalizedOps.take row.seq) row.content ∧
      Represents (s.rowsThrough row.seq) (s.coordinator.queue.finalizedOps.take row.seq)

theorem imaged_init (documentId : String) {known : List Operation} (distinct : DistinctIds known) :
    Imaged known (init documentId) [] where
  accounted := (mirrored_init documentId distinct).accounted
  dots _ := rfl
  queue := CommitQueue.invariant_resume (.empty documentId) nofun
  consecutive := CommitQueue.consecutive_init documentId
  wf := Store.wf_empty documentId
  rows := nofun
  snapshots row member := by simp [init, Store.empty] at member

namespace Imaged

variable {known history : List Operation} {s s' : Server}

/-! ### A settled server -/

theorem replay (imaged : s.Imaged known history) (apart : Network.SiblingsApart known)
    (settled : ∀ c ∈ s.coordinator.queue.commits, c.phase.settled = true) :
    ∀ row ∈ s.store.snapshots, ∃ e,
      replayThrough s.store.loadFullOperationLogWithSeq row.seq = .ok e ∧
        e.text = .ok row.content := by
  intro row member
  obtain ⟨-, pictured, represents⟩ := imaged.snapshots row (Or.inl member)
  obtain ⟨log, replayed, ran, built, same, dots, text⟩ := pictured
  have nothing : s.coordinator.queue.awaited = [] := by
    rw [CommitQueue.awaited, List.filter_eq_nil_iff.mpr fun c inside => ?_, List.flatMap_nil]
    have finished := settled c inside
    cases phase : c.phase <;> simp_all [CommitPhase.waiting, CommitPhase.settled]
  have ascending : s.store.loadFullOperationLogWithSeq.Pairwise fun a b => a.1 < b.1 :=
    List.pairwise_map.mpr imaged.wf.ascending
  have rows : s.store.loadFullOperationLogWithSeq.takeWhile (fun r => r.1 ≤ row.seq) =
      s.rowsThrough row.seq := by
    rw [takeWhile_eq_filter row.seq ascending, rowsThrough, nothing, List.foldl_nil]
  rw [replayThrough, rows]
  rcases represents with exact | rearranges
  · rw [exact]
    exact ⟨log, ran, text⟩
  · have nodup : (((s.rowsThrough row.seq).map Prod.snd).map Operation.id).Nodup := by
      rw [List.map_map, rowsThrough]
      refine List.Nodup.sublist (List.filter_sublist.map _) (nodup_foldl_insertRow ?_)
      rw [Store.loadFullOperationLogWithSeq, List.map_map]
      exact imaged.wf.stamps
    have inKnown : ∀ op ∈ replayed, op ∈ known := fun op inside => by
      obtain ⟨r, shown, rfl⟩ := List.mem_map.mp ((same op).mpr inside)
      obtain ⟨sub, -⟩ := logRows_sublist (imaged.accounted.live.distinct.subset fun op member =>
        imaged.accounted.finalized_known op member)
        (fun op (member : op ∈ s.coordinator.queue.finalizedOps.take row.seq) =>
          List.mem_of_mem_take member)
      exact imaged.accounted.finalized_known _
        (List.mem_of_mem_take (mem_of_numberedFrom (sub.subset shown)))
    obtain ⟨r, ran', -, nodes⟩ := rearranges.replay nodup built same dots
      (fun a b inA inB => apart a b (inKnown _ inA) (inKnown _ inB)) 0
    refine ⟨r, ran', ?_⟩
    rw [← text, Engine.text, Engine.text, Engine.visible, Engine.visible, nodes]

theorem snapshotsReplay (imaged : s.Imaged known history) (apart : Network.SiblingsApart known) :
    s.SnapshotsReplay := by
  intro settled
  have replayed := imaged.replay apart settled
  refine ⟨replayed, fun mismatch => ?_⟩
  unfold auditDocument at mismatch
  obtain ⟨replay, -, mismatch⟩ := Throwing.ok_of_bind mismatch
  split_ifs at mismatch with stuck
  · cases mismatch
  obtain ⟨replayText, -, mismatch⟩ := Throwing.ok_of_bind mismatch
  cases latest : s.store.latestSnapshot with
  | none => simp [latest, bind, Except.bind] at mismatch
  | some snapshot =>
      obtain ⟨e, ran, text⟩ := replayed snapshot (List.mem_of_mem_head? latest)
      simp [latest, ran, text, bind, Except.bind] at mismatch

/-! ### One event -/

/-- The attributions of the rows follow those of the engine. -/
theorem dots_receive (imaged : s.Imaged known history) {msg : OpsMessage}
    (minted : ∀ op ∈ toOperations msg, op ∈ known)
    (untangled : Untangled s.coordinator.engine (toOperations msg)) {c : Coordinator}
    {relays : List Relay} {applied own released : List Operation} {session : Nat}
    (intake : Intake s.coordinator c history applied session (toOperations msg) own released relays)
    (target : Identifier) :
    dotOf ((logRows (s.coordinator.queue.finalizedOps ++ (own ++ released))).map Prod.snd) target =
      dotOf (history ++ applied) target := by
  have holds : Known known s.coordinator.engine history (toOperations msg) :=
    { imaged.accounted.live with minted }
  obtain ⟨added, rows, from_, all, exact⟩ := imaged.accounted.added_rows minted intake
  obtain ⟨-, sameRows⟩ :=
    logRows_sublist imaged.accounted.live.distinct imaged.accounted.finalized_known
  have before : ∀ op, op ∈ (logRows s.coordinator.queue.finalizedOps).map Prod.snd ↔ op ∈ history :=
    fun op => (sameRows op).trans (imaged.accounted.stored op)
  have nodup : ((logRows s.coordinator.queue.finalizedOps).map Prod.snd ++
      added.map Prod.snd).Nodup := by
    rw [← List.map_append, ← rows]
    refine List.Nodup.of_map Operation.id ?_
    rw [List.map_map]
    exact nodup_foldl_insertRow List.nodup_nil
  have fresh : ∀ op ∈ added.map Prod.snd, op ∉ history := fun op member old =>
    (List.nodup_append.mp nodup).2.2 op ((before op).mpr old) op member rfl
  rw [rows, List.map_append]
  rcases toOperations_shape msg with ⟨parent, chain⟩ | without
  · refine Replayed.dotOf_inserts holds intake.settled intake.absorbed
      (fun op member => chain.insertedId op member) untangled nodup before (fun op => ?_) imaged.dots
      target
    rw [List.mem_append, List.mem_append, before]
    constructor
    · exact fun member => member.elim Or.inl fun new =>
        List.mem_append.mp (intake.mem_history holds op (from_ op new))
    · exact Or.imp_right (all op)
  · obtain rfl := Replayed.released_eq_nil holds intake without
    have unique : own.Nodup := (nodup_toOperations msg).sublist intake.ownFrom
    rw [List.append_nil] at exact
    have inOrder : added.map Prod.snd = applied := by
      rw [intake.inOrder rfl unique, ← (exact unique).2]
      exact (List.filter_eq_self.mpr fun op member => by simpa using fresh op member).symm
    rw [inOrder, dotOf_append, dotOf_append, imaged.dots]

theorem receive (imaged : s.Imaged known history) {session nowMs : Nat} {msg : OpsMessage}
    (minted : ∀ op ∈ toOperations msg, op ∈ known)
    (untangled : Untangled s.coordinator.engine (toOperations msg))
    (moved : step s (.receive session (toOperations msg) nowMs) = .ok s') :
    ∃ history', s'.Imaged known history' := by
  obtain ⟨c, relays, applied, own, released, rfl, intake, grown, accounted⟩ :=
    imaged.accounted.receive minted untangled moved
  have nonempty : ∀ batch ∈ relays.map (fun r => (r.origin, r.ops)), batch.2 ≠ [] :=
    fun batch member => by
      obtain ⟨r, inside, rfl⟩ := List.mem_map.mp member
      exact intake.nonempty r inside
  obtain ⟨later, awaited, above⟩ :=
    s.coordinator.queue.awaited_enqueueAll (relays.map fun r => (r.origin, r.ops))
  refine ⟨history ++ applied, accounted, fun target => ?_, ?_, ?_, imaged.wf, fun row member => ?_,
    fun row member => ?_⟩
  · simp only [grown]
    exact imaged.dots_receive minted untangled intake target
  · simp only [intake.queue]
    exact imaged.queue.enqueueAll nonempty
  · simp only [intake.queue]
    exact imaged.consecutive.enqueueAll _
  · simp only [grown]
    rw [numberedFrom_append]
    exact List.mem_append_left _ (imaged.rows row member)
  · obtain ⟨low, pictured, represents⟩ := imaged.snapshots row member
    simp only [grown]
    rw [List.length_append, List.take_append_of_le_length low]
    refine ⟨Nat.le_add_right_of_le low, pictured, ?_⟩
    have same : rowsThrough { s with coordinator := c, received := s.received ++ toOperations msg }
        row.seq = s.rowsThrough row.seq := by
      simp only [rowsThrough, intake.queue]
      rw [awaited, List.foldl_append]
      refine filter_foldl_insertRow_above _ fun r inside => ?_
      have high := above r inside
      rw [imaged.consecutive.currentSeq] at high
      omega
    rwa [same]

/-- An event that leaves the engine and the finalized operations alone. -/
theorem congr (imaged : s.Imaged known history)
    (engine : s'.coordinator.engine = s.coordinator.engine)
    (origins : s'.coordinator.pendingOpOrigin = s.coordinator.pendingOpOrigin)
    (finalized : s'.coordinator.queue.finalizedOps = s.coordinator.queue.finalizedOps)
    (queue : CommitQueue.Invariant 0 (s'.store, s'.coordinator.queue))
    (consecutive : s'.coordinator.queue.Consecutive) (wf : s'.store.WF)
    (rows : ∀ row ∈ s'.store.loadFullOperationLogWithSeq,
      row ∈ numberedFrom 1 s.coordinator.queue.finalizedOps)
    (snapshots : ∀ row, row ∈ s'.store.snapshots ∨ row ∈ s'.capturing →
      (row ∈ s.store.snapshots ∨ row ∈ s.capturing) ∧
        Represents (s'.rowsThrough row.seq) (s.coordinator.queue.finalizedOps.take row.seq)) :
    s'.Imaged known history where
  accounted := imaged.accounted.congr engine origins finalized
  dots := finalized ▸ imaged.dots
  queue := queue
  consecutive := consecutive
  wf := wf
  rows := by
    rw [finalized]
    exact rows
  snapshots row member := by
    obtain ⟨old, represents⟩ := snapshots row member
    obtain ⟨low, pictured, -⟩ := imaged.snapshots row old
    rw [finalized]
    exact ⟨low, pictured, represents⟩

/-- A commit changes its phase; the rows up to the snapshots stay, or it failed. -/
theorem phase (imaged : s.Imaged known history) {queue : CommitQueue} (event : CommitQueue.Event)
    {acked : List Operation}
    (moved : CommitQueue.step (s.store, s.coordinator.queue) event = .ok (s.store, queue))
    (settled : ∀ origin ops, event ≠ .enqueue origin ops)
    (kept : ∀ row, row ∈ s.store.snapshots ∨ row ∈ s.capturing →
      Represents ((s.setQueue queue).rowsThrough row.seq)
        (s.coordinator.queue.finalizedOps.take row.seq)) :
    Imaged known { s.setQueue queue with acked } history := by
  have phases : queue.finalizedOps = s.coordinator.queue.finalizedOps ∧ queue.Consecutive := by
    obtain ⟨origin, ops, rfl, -⟩ | ⟨i, c, entry, ⟨-, -, -, -, rfl⟩ | ⟨now, -, -, -, rfl⟩ |
      ⟨-, -, -, rfl⟩ | ⟨-, -, -, rfl⟩⟩ := CommitQueue.step_cases moved
    · exact absurd rfl (settled origin ops)
    all_goals exact ⟨CommitQueue.finalizedOps_setPhase _ i _, imaged.consecutive.setPhase i _ _⟩
  exact imaged.congr rfl rfl phases.1 (imaged.queue.step moved) phases.2 imaged.wf imaged.rows
    fun row member => ⟨member, kept row member⟩

/-- What may still land does not change. -/
theorem waiting_phase (imaged : s.Imaged known history) {queue : CommitQueue}
    (event : CommitQueue.Event) {acked : List Operation}
    (moved : CommitQueue.step (s.store, s.coordinator.queue) event = .ok (s.store, queue))
    (settled : ∀ origin ops, event ≠ .enqueue origin ops)
    (awaited : queue.awaited = s.coordinator.queue.awaited) :
    Imaged known { s.setQueue queue with acked } history := by
  refine imaged.phase event moved settled fun row member => ?_
  have same : (s.setQueue queue).rowsThrough row.seq = s.rowsThrough row.seq := by
    rw [rowsThrough, rowsThrough, setQueue, awaited]
  rw [same]
  exact (imaged.snapshots row member).2.2

theorem land (imaged : s.Imaged known history) {i now : Nat}
    (moved : step s (.land i now) = .ok s') : s'.Imaged known history := by
  simp only [step] at moved
  obtain ⟨⟨store, queue⟩, landed, done⟩ := Throwing.ok_of_bind moved
  obtain rfl := Except.ok.inj done
  have event : CommitQueue.step (s.store, s.coordinator.queue) (.land i now) = .ok (store, queue) := by
    rw [CommitQueue.step, landed]
  have next := imaged.queue.step event
  obtain ⟨c, entry, running, rfl, rfl⟩ := CommitQueue.land_cases landed
  have inCommits := List.mem_of_getElem? entry
  have nonempty := imaged.queue.nonempty c inCommits
  have below := imaged.queue.below entry running
  obtain ⟨new, spec, current⟩ := s.store.commitOperations_spec c.startSeq now c.ops nonempty below
  have rows : (s.store.commitOperations c.startSeq c.ops now).2.loadFullOperationLogWithSeq =
      c.numbers.foldl insertRow s.store.loadFullOperationLogWithSeq := by
    rw [Store.commitOperations, if_neg nonempty]
    exact s.store.load_insertAll c.startSeq now c.ops below
  refine imaged.congr rfl rfl (CommitQueue.finalizedOps_setPhase _ i _) next
    (imaged.consecutive.setPhase i _ s.coordinator.queue.lastCommittedSeq) ?_ (fun row member => ?_)
    fun row member => ?_
  · exact spec.wf imaged.wf below (imaged.queue.range c inCommits).1 current
  · simp only [rows] at member
    rcases foldl_insertRow_sub _ _ row member with old | added
    · exact imaged.rows row old
    · exact imaged.consecutive.numbers_sub inCommits row added
  · simp only [spec.snapshots] at member
    refine ⟨member, ?_⟩
    -- the rows come now that were awaited before
    have same : rowsThrough { s.setQueue (s.coordinator.queue.setPhase i .landed) with
        store := (s.store.commitOperations c.startSeq c.ops now).2 } row.seq =
        s.rowsThrough row.seq := by
      simp only [rowsThrough, setQueue, rows]
      rw [CommitQueue.awaited_running imaged.queue.inOrder entry running
        (show CommitPhase.landed.waiting = false from rfl), List.foldl_append]
    rw [same]
    exact (imaged.snapshots row member).2.2

theorem capture (imaged : s.Imaged known history) (apart : Network.SiblingsApart known)
    (keeps : s.KeepsImages .capture) (moved : step s .capture = .ok s') :
    s'.Imaged known history := by
  obtain ⟨content, text, rfl⟩ := capture_ok moved
  obtain ⟨-, sameRows⟩ :=
    logRows_sublist imaged.accounted.live.distinct imaged.accounted.finalized_known
  refine ⟨imaged.accounted.congr rfl rfl rfl, imaged.dots, imaged.queue, imaged.consecutive,
    imaged.wf, imaged.rows, fun row member => ?_⟩
  rw [List.mem_append, ← or_assoc] at member
  rcases member with old | new
  · exact imaged.snapshots row old
  · obtain rfl := List.mem_singleton.mp new
    simp only [imaged.consecutive.currentSeq, List.take_length]
    refine ⟨le_refl _, ?_, ?_⟩
    · obtain ⟨log, replayed, ran, spec⟩ := imaged.accounted.rows
      refine ⟨log, replayed, ran, spec.built, fun op => ?_, fun target => ?_, ?_⟩
      · rw [sameRows, imaged.accounted.stored, spec.same]
      · rw [imaged.dots, spec.dots]
      · rw [← text, Engine.text, Engine.text, Engine.visible, Engine.visible,
          spec.nodes_eq imaged.accounted.live.built fun a b inA inB => apart a b
            (imaged.accounted.live.applied _ inA) (imaged.accounted.live.applied _ inB)]
    · have represents : Represents (s.rowsThrough s.coordinator.queue.currentSeq)
          s.coordinator.queue.finalizedOps := keeps
      rwa [imaged.consecutive.currentSeq] at represents

theorem writeSnapshot (imaged : s.Imaged known history) {k : Nat}
    (moved : step s (.writeSnapshot k) = .ok s') : s'.Imaged known history := by
  obtain ⟨store, capturing, rfl, written⟩ := writeSnapshot_ok moved
  have rows : store.loadFullOperationLogWithSeq = s.store.loadFullOperationLogWithSeq := by
    rw [Store.loadFullOperationLogWithSeq, written.operations]
    rfl
  refine imaged.congr rfl rfl rfl (imaged.queue.congr_store written.operations) imaged.consecutive
    (written.wf imaged.wf) (fun r member => imaged.rows r (by rwa [← rows])) fun r member => ?_
  have old := written.known r member
  refine ⟨old, ?_⟩
  simp only [rowsThrough, rows]
  exact (imaged.snapshots r old).2.2

theorem step (imaged : s.Imaged known history) (apart : Network.SiblingsApart known)
    {event : ServerEvent} (steady : event.Steady) (minted : ∀ op ∈ offered event, op ∈ known)
    (keeps : s.KeepsImages event) (moved : Server.step s event = .ok s') :
    ∃ history', s'.Imaged known history' := by
  cases event with
  | receive session ops nowMs =>
      obtain ⟨msg, rfl⟩ := steady
      exact imaged.receive minted keeps moved
  | start i =>
      simp only [Server.step] at moved
      obtain ⟨queue, started, done⟩ := Throwing.ok_of_bind moved
      obtain rfl := Except.ok.inj done
      have event : CommitQueue.step (s.store, s.coordinator.queue) (.start i) =
          .ok (s.store, queue) := by
        rw [CommitQueue.step, started]
        rfl
      refine ⟨history, imaged.waiting_phase (.start i) event (by rintro _ _ ⟨⟩) ?_⟩
      unfold CommitQueue.start at started
      split at started
      · rename_i c entry
        split_ifs at started with next
        obtain rfl := Except.ok.inj started
        exact CommitQueue.awaited_setPhase entry (by rw [next.1]; rfl)
      · cases started
  | land i committedAtMs => exact ⟨history, imaged.land moved⟩
  | succeed i =>
      simp only [Server.step] at moved
      obtain ⟨queue, succeeded, done⟩ := Throwing.ok_of_bind moved
      obtain rfl := Except.ok.inj done
      have event : CommitQueue.step (s.store, s.coordinator.queue) (.succeed i) =
          .ok (s.store, queue) := by
        rw [CommitQueue.step, succeeded]
        rfl
      refine ⟨history, imaged.waiting_phase (.succeed i) event (by rintro _ _ ⟨⟩) ?_⟩
      unfold CommitQueue.succeed at succeeded
      split at succeeded
      · rename_i c entry
        split_ifs at succeeded with landed
        obtain rfl := Except.ok.inj succeeded
        have same : (s.coordinator.queue.setPhase i .succeeded).awaited =
            s.coordinator.queue.awaited := CommitQueue.awaited_setPhase entry (by rw [landed]; rfl)
        exact same
      · cases succeeded
  | fail i =>
      simp only [Server.step] at moved
      obtain ⟨queue, failed, done⟩ := Throwing.ok_of_bind moved
      obtain rfl := Except.ok.inj done
      refine ⟨history, imaged.phase (.fail i) ?_ (by rintro _ _ ⟨⟩) (keeps queue failed)⟩
      rw [CommitQueue.step, failed]
      rfl
  | capture => exact ⟨history, imaged.capture apart keeps moved⟩
  | writeSnapshot k => exact ⟨history, imaged.writeSnapshot moved⟩
  | restart => exact absurd steady id

end Imaged

/-- Two characters, one after the other. -/
def photographed : InsertOperation := ⟨⟨1, 1⟩, 97, none, .R, false⟩

def appended : InsertOperation := ⟨⟨2, 1⟩, 98, some ⟨1, 1⟩, .R, false⟩

/-- The commit of the second character fails and it is sent again; both snapshots are taken while
the rows stand for everything that is finalized. -/
def retaken : List ServerEvent :=
  [.receive 1 (toOperations (.opInsert photographed)) 0, .start 0, .land 0 0, .succeed 0, .capture,
    .writeSnapshot 0, .receive 1 (toOperations (.opInsert appended)) 0, .start 1, .fail 1,
    .receive 1 (toOperations (.opInsert appended)) 0, .capture, .start 2, .land 2 0, .succeed 2,
    .writeSnapshot 0]

/-- The snapshot is taken while the commit of the only character is under way, and the commit
fails. -/
def unbacked : List ServerEvent :=
  [.receive 1 (toOperations (.opInsert photographed)) 0, .start 0, .capture, .writeSnapshot 0,
    .fail 0]

/-- Inserts in the same order represent each other. -/
theorem represents_of_inserts {rows : List (Nat × Operation)} {ops : List Operation}
    (same : rows.map Prod.snd = (logRows ops).map Prod.snd)
    (inserts : ∀ op ∈ rows.map Prod.snd, op.insertedId ≠ none) : Represents rows ops := by
  refine Or.inr ⟨fun op => by rw [same], fun target disputed => by rw [same],
    fun target disputed => ?_⟩
  obtain ⟨d, u, deleted, -⟩ := disputed
  rw [Deletes, ← same] at deleted
  exact absurd rfl (inserts _ deleted)

end Server

end ConfluenceEditor
