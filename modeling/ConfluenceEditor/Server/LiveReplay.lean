/-
The live engine against a replay of its log.

The engine applies released operations in the order in which the buffer is drained, the log has them
in the order of their arrival; a delete and an undelete of one node by one replica, released by one
message, end up in the wrong order (`untangled`). As long as no message releases such a pair, and no
commit fails, a replay of the finalized operations shows the same nodes as the live engine at every
moment, and an audit finds nothing once all commits have landed (`live_matches_log`).
-/

import ConfluenceEditor.Server.Durability
import ConfluenceEditor.Server.Intake
import ConfluenceEditor.Server.LogRows

namespace ConfluenceEditor

open Engine Coordinator

/-! ### A replay of a history -/

/-- The engine applied the operations of a history in some order, with the same attributions. -/
structure Replayed (r : Engine) (history replayed : List Operation) : Prop where
  built : Built r replayed
  empty : r.pending = []
  same : ∀ op, op ∈ replayed ↔ op ∈ history
  dots : ∀ target, dotOf replayed target = dotOf history target

theorem replayed_new (replicaId : Nat) : Replayed (Engine.new replicaId) [] [] :=
  ⟨built_new replicaId, rfl, fun _ => Iff.rfl, fun _ => rfl⟩

/-- No message brings in a node of which both the greatest waiting delete and an undelete come from
one replica. -/
def Untangled (e : Engine) (ops : List Operation) : Prop :=
  ∀ del und, .delete del ∈ e.pending →
    (∀ del', .delete del' ∈ e.pending → del'.target = del.target → ¬ del.id < del'.id) →
    .undelete und ∈ e.pending → und.target = del.target → und.id.r = del.id.r →
    ¬ Supplied e ops del.target

namespace Replayed

variable {known history applied replayed ops later : List Operation} {e e' r : Engine}

/-- It shows the same nodes. -/
theorem nodes_eq (spec : Replayed r history replayed) (built : Built e history)
    (apart : Network.SiblingsApart history) : r.nodes = e.nodes :=
  (nodes_eq_of_history built spec.built apart (fun _ => (spec.same _).symm)
    fun target => (spec.dots target).symm).symm

/-- Offering further operations that make up an extension of the history: all of them are applied
in the end. -/
theorem applyAll_closed (spec : Replayed r history replayed) (built' : Built e' (history ++ applied))
    (distinct : DistinctIds (history ++ applied)) (inside : ∀ op ∈ later, op ∈ history ++ applied)
    (all : ∀ op ∈ applied, op ∈ later) :
    ∃ r' more, r.applyAll later = .ok r' ∧ Built r' (replayed ++ more) ∧ r'.pending = [] ∧
      ∀ op, op ∈ replayed ++ more ↔ op ∈ history ++ applied := by
  obtain ⟨r', more, ran, absorbed, settled⟩ := spec.built.applyAll_spec later
  rw [spec.empty, List.nil_append] at absorbed
  have settled' : r'.Settled := settled fun op member => by
    rw [spec.empty] at member
    cases member
  have from_ : ∀ op ∈ replayed ++ more, op ∈ history ++ applied := fun op member => by
    rcases List.mem_append.mp member with old | new
    · exact List.mem_append_left _ ((spec.same op).mp old)
    · exact inside op (absorbed.appliedFrom op new)
  have offered : ∀ op ∈ history ++ applied, op ∈ r'.pending ∨ r'.hasApplied op.id = true :=
    fun op member => by
      rcases List.mem_append.mp member with old | new
      · exact Or.inr (absorbed.built.hasApplied_iff.mpr
          ⟨op, List.mem_append_left _ ((spec.same op).mpr old), rfl⟩)
      · exact absorbed.complete op (all op new)
  refine ⟨r', more, ran, absorbed.built, ?_, fun op => ⟨from_ op, ?_⟩⟩
  · exact absorbed.built.pending_eq_nil settled' built'.causal distinct from_
      (fun op member => inside op (absorbed.pendingFrom.subset member)) offered
  · exact absorbed.built.mem_history_of_offered settled' built'.causal distinct from_ offered op

/-- Operations that neither delete nor undelete a node leave its attribution alone. -/
theorem foldl_silent {target : Identifier} (dot : Option Identifier)
    (spared : ∀ d, ¬ Deletes ops target d) (kept : ∀ u, ¬ Undeletes ops target u) :
    ops.foldl (stepDot target) dot = dot := by
  cases dot with
  | none => exact dotOf_eq_none spared
  | some d =>
      exact Holds.foldl_eq ⟨fun d' deleted => absurd deleted (spared d'),
        fun u revived => absurd revived (kept u)⟩

/-- What a waiting operation is about is not there yet. -/
theorem waiting_absent (built : Built e history) (settled : e.Settled) {op : Operation}
    {target : Identifier} (waiting : op ∈ e.pending) (named : op.dependency = some target) :
    ¬ ∃ ins : InsertOperation, .insert ins ∈ history ∧ ins.id = target := fun present => by
  have early := (settled op waiting).2
  rw [built.ready_iff.mpr fun d other => by
    obtain rfl := Option.some.inj (named.symm.trans other)
    exact present] at early
  cases early

/-- A message without inserts: what it applies is applied in the same order. -/
theorem extend_deletes (spec : Replayed r history replayed)
    (built' : Built e' (history ++ applied)) (distinct : DistinctIds (history ++ applied))
    (without : ∀ op ∈ applied, op.insertedId = none) (nodup : later.Nodup)
    (inside : ∀ op ∈ later, op ∈ history ++ applied)
    (inOrder : later.filter (fun op => decide (op ∉ history)) = applied) :
    ∃ r' more, r.applyAll later = .ok r' ∧ Replayed r' (history ++ applied) (replayed ++ more) := by
  have larger : ∀ op ∈ replayed ++ later, op ∈ history ++ applied := fun op member => by
    rcases List.mem_append.mp member with old | new
    · exact List.mem_append_left _ ((spec.same op).mp old)
    · exact inside op new
  -- every dependency was there before
  have met : ∀ op ∈ later, DependencyMet replayed op := fun op member d named => by
    obtain ⟨ins, inserted, id⟩ := built'.causal.met (inside op member) d named
    refine ⟨ins, (spec.same _).mpr ((List.mem_append.mp inserted).resolve_right fun new => ?_), id⟩
    cases without _ new
  have causal : Causal (replayed ++ later) :=
    spec.built.causal.append_prepared (prepared_of_met met)
  obtain ⟨r', ran, built'', empty', -⟩ :=
    spec.built.applyAll_causal spec.empty (distinct.subset larger) nodup causal
  have new : later.filter (fun op => decide (op ∉ replayed)) = applied := by
    rw [← inOrder]
    exact List.filter_congr fun op _ => by simp only [spec.same]
  rw [new] at built''
  refine ⟨r', applied, ran, built'', empty', fun op => ?_, fun target => ?_⟩
  · rw [List.mem_append, List.mem_append, spec.same]
  · rw [dotOf_append, dotOf_append, spec.dots]

/-- A message of inserts: what it releases for a new node is undisputed, and nothing else changes an
attribution, whatever the order in which the same operations are listed. -/
theorem dotOf_inserts {listed more : List Operation} (holds : Known known e history ops)
    (settled' : e'.Settled) (absorbed : Absorbed e e' history applied (e.pending ++ ops))
    (inserts : ∀ op ∈ ops, op.insertedId = some op.id) (untangled : Untangled e ops)
    (nodup : (listed ++ more).Nodup) (before : ∀ op, op ∈ listed ↔ op ∈ history)
    (same : ∀ op, op ∈ listed ++ more ↔ op ∈ history ++ applied)
    (dots : ∀ target, dotOf listed target = dotOf history target) (target : Identifier) :
    dotOf (listed ++ more) target = dotOf (history ++ applied) target := by
  have deletes : ∀ d, Deletes applied target d → .delete ⟨d, target⟩ ∈ e.pending := fun d deleted =>
    (List.mem_append.mp (absorbed.appliedFrom _ deleted)).resolve_right fun own => by
      cases inserts _ own
  have undeletes : ∀ u, Undeletes applied target u → .undelete ⟨u, target⟩ ∈ e.pending :=
    fun u revived => (List.mem_append.mp (absorbed.appliedFrom _ revived)).resolve_right
      fun own => by cases inserts _ own
  by_cases present : ∃ ins : InsertOperation, .insert ins ∈ history ∧ ins.id = target
  · -- nothing that waited is about a node that was there
    have added : ∀ op ∈ more, op ∈ applied := fun op member =>
      (List.mem_append.mp ((same op).mp (List.mem_append_right _ member))).resolve_left fun old =>
        (List.nodup_append.mp nodup).2.2 op ((before op).mpr old) op member rfl
    have spared : ∀ d, ¬ Deletes applied target d := fun d deleted =>
      waiting_absent holds.built holds.settled (deletes d deleted) rfl present
    have kept : ∀ u, ¬ Undeletes applied target u := fun u revived =>
      waiting_absent holds.built holds.settled (undeletes u revived) rfl present
    rw [dotOf_append, dotOf_append, foldl_silent _ spared kept,
      foldl_silent _ (fun d deleted => spared d (added _ deleted))
        (fun u revived => kept u (added _ revived)), dots]
  · have old : ∀ op ∈ history, op.dependency ≠ some target := fun op member named =>
      present (holds.built.causal.met member target named)
    refine dotOf_eq_of_kept same fun d deleted greatest u revived own => ?_
    have deleted' : Deletes applied target d :=
      (List.mem_append.mp ((same _).mp deleted)).resolve_left fun before => old _ before rfl
    have revived' : Undeletes applied target u :=
      (List.mem_append.mp ((same _).mp revived)).resolve_left fun before => old _ before rfl
    -- the node is new, so the message supplied it
    obtain ⟨ins, inserted, rfl⟩ := absorbed.built.causal.met
      (List.mem_append_right _ deleted') target rfl
    have new : .insert ins ∈ applied := (List.mem_append.mp inserted).resolve_left fun before =>
      present ⟨ins, before, rfl⟩
    refine untangled _ _ (deletes d deleted') (fun del waiting same' => ?_) (undeletes u revived') rfl
      own (supplied_of_applied holds.built absorbed new)
    -- another delete that waits for the node is applied, too
    have done : .delete del ∈ history ++ applied := by
      rcases absorbed.complete _ (List.mem_append_left _ waiting) with still | known
      · exact absurd ⟨ins, inserted, same'.symm⟩ (waiting_absent absorbed.built settled' still rfl)
      · exact (holds.hasApplied_iff absorbed (holds.waiting _ waiting)).mp known
    obtain ⟨id, t⟩ := del
    obtain rfl : t = ins.id := same'
    exact greatest id ((same _).mpr done)

theorem extend_inserts (spec : Replayed r history replayed) (holds : Known known e history ops)
    (settled' : e'.Settled) (absorbed : Absorbed e e' history applied (e.pending ++ ops))
    (inserts : ∀ op ∈ ops, op.insertedId = some op.id) (untangled : Untangled e ops)
    (inside : ∀ op ∈ later, op ∈ history ++ applied) (all : ∀ op ∈ applied, op ∈ later) :
    ∃ r' more, r.applyAll later = .ok r' ∧ Replayed r' (history ++ applied) (replayed ++ more) := by
  obtain ⟨r', more, ran, built', empty', same⟩ :=
    spec.applyAll_closed absorbed.built (holds.distinct.subset (holds.history_known absorbed)) inside
      all
  exact ⟨r', more, ran, built', empty', same,
    dotOf_inserts holds settled' absorbed inserts untangled built'.nodup.of_map spec.same same
      spec.dots⟩

/-- A message without inserts releases nothing: nothing waits for a node that is already there. -/
theorem released_eq_nil {c c' : Coordinator} {msg : OpsMessage} {session : Nat}
    {own released : List Operation} {relays : List Relay}
    (holds : Known known c.engine history (toOperations msg))
    (intake : Intake c c' history applied session (toOperations msg) own released relays)
    (without : ∀ op ∈ toOperations msg, op.insertedId = none) : released = [] := by
  have fresh := no_insert holds.built holds.settled intake.absorbed without
  refine List.eq_nil_iff_forall_not_mem.mpr fun op freed => ?_
  have early := (holds.settled op (intake.releasedFrom.subset freed)).2
  have inApplied := intake.released_applied holds op freed
  rw [holds.built.ready_iff.mpr fun d named => ?_] at early
  · cases early
  · obtain ⟨ins, inserted, id⟩ :=
      intake.absorbed.built.causal.met (List.mem_append_right _ inApplied) d named
    refine ⟨ins, (List.mem_append.mp inserted).resolve_right fun new => ?_, id⟩
    cases fresh _ new

/-- Offering what a message finalized, each operation at least once. -/
theorem extend {c c' : Coordinator} {msg : OpsMessage} {session : Nat} {own released : List Operation}
    {relays : List Relay} (spec : Replayed r history replayed) (later : List Operation)
    (holds : Known known c.engine history (toOperations msg))
    (intake : Intake c c' history applied session (toOperations msg) own released relays)
    (untangled : Untangled c.engine (toOperations msg))
    (inside : ∀ op ∈ later, op ∈ own ++ released) (all : ∀ op ∈ applied, op ∈ later)
    (exact : (own ++ released).Nodup → later.Nodup ∧ later.filter (fun op => decide (op ∉ history)) =
      (own ++ released).filter fun op => decide (op ∉ history)) :
    ∃ r' more, r.applyAll later = .ok r' ∧ Replayed r' (history ++ applied) (replayed ++ more) := by
  have within : ∀ op ∈ later, op ∈ history ++ applied := fun op member =>
    intake.mem_history holds op (inside op member)
  rcases toOperations_shape msg with ⟨parent, chain⟩ | without
  · exact spec.extend_inserts holds intake.settled intake.absorbed
      (fun op member => chain.insertedId op member) untangled within all
  · have fresh := no_insert holds.built holds.settled intake.absorbed without
    obtain rfl := released_eq_nil holds intake without
    have unique : own.Nodup := (nodup_toOperations msg).sublist intake.ownFrom
    rw [List.append_nil] at exact
    obtain ⟨nodup, same⟩ := exact unique
    exact spec.extend_deletes intake.absorbed.built
      (holds.distinct.subset (holds.history_known intake.absorbed)) fresh nodup within
      (same.trans (intake.inOrder rfl unique).symm)

end Replayed

/-! ### The audit -/

inductive AuditVerdict where
  | ok
  | mismatch
  | error
  deriving DecidableEq, Repr

/-- Replay the rows up to a number into a fresh engine. -/
def replayThrough (seqOps : List (Nat × Operation)) (throughSeq : Nat) : Except String Engine :=
  (Engine.new 0).applyAll ((seqOps.takeWhile fun row => row.1 ≤ throughSeq).map Prod.snd)

/-- The verdict of an audit; the scheduler has the live text, the command line has not. -/
def auditDocument (store : Store) (liveText : Option (List Nat)) : Except String AuditVerdict := do
  let seqOps := store.loadFullOperationLogWithSeq
  let replay ← (Engine.new 0).applyAll (seqOps.map Prod.snd)
  if replay.pending.length ≠ 0 then .ok .error
  else do
    let replayText ← replay.text
    let sound ← match store.latestSnapshot with
      | some snapshot => do
          let replayed ← replayThrough seqOps snapshot.seq
          let prefixText ← replayed.text
          .ok (decide (prefixText = snapshot.content))
      | none => .ok true
    if !sound then .ok .mismatch
    else if liveText.any fun text => text ≠ replayText then .ok .mismatch
    else .ok .ok

/-- A decoded message, or an event of a process that neither crashes nor sees a commit fail. -/
def ServerEvent.Healthy : ServerEvent → Prop
  | .receive _ ops _ => ∃ msg, ops = toOperations msg
  | .fail _ => False
  | .restart => False
  | _ => True

namespace Server

/-- A replay of the finalized operations shows the nodes of the live engine, with their flags and
attributions, and an audit finds nothing to report once every commit has landed. -/
structure MatchesLog (s : Server) : Prop where
  replay : ∃ e, (Engine.new serverReplicaId).applyAll s.coordinator.queue.finalizedOps = .ok e ∧
    e.pending = [] ∧ e.nodes = s.coordinator.engine.nodes
  audit : (∀ c ∈ s.coordinator.queue.commits, c.phase.stored = true) →
    ∀ liveText, s.coordinator.engine.text = .ok liveText →
      auditDocument s.store none = .ok .ok ∧ auditDocument s.store (some liveText) = .ok .ok

/-- No message brings in a node of which both the greatest waiting delete and an undelete come from
one replica. -/
def UntangledEvent (s : Server) : ServerEvent → Prop
  | .receive _ ops _ => Untangled s.coordinator.engine ops
  | _ => True

/-- What the live engine and the finalized operations have in common, whatever became of their
commits. -/
structure Accounted (known : List Operation) (s : Server) (history : List Operation) : Prop where
  live : Known known s.coordinator.engine history []
  covered : Covered s.coordinator
  stored : ∀ op, op ∈ s.coordinator.queue.finalizedOps ↔ op ∈ history
  finalized : ∃ log replayed,
    (Engine.new serverReplicaId).applyAll s.coordinator.queue.finalizedOps = .ok log ∧
      Replayed log history replayed
  rows : ∃ log replayed,
    (Engine.new 0).applyAll ((logRows s.coordinator.queue.finalizedOps).map Prod.snd) = .ok log ∧
      Replayed log history replayed

namespace Accounted

variable {known history : List Operation} {s s' : Server}

theorem finalized_known (accounted : s.Accounted known history) :
    ∀ op ∈ s.coordinator.queue.finalizedOps, op ∈ known := fun op member =>
  accounted.live.applied op ((accounted.stored op).mp member)

/-- An event that leaves the engine and the finalized operations alone. -/
theorem congr (accounted : s.Accounted known history)
    (engine : s'.coordinator.engine = s.coordinator.engine)
    (origins : s'.coordinator.pendingOpOrigin = s.coordinator.pendingOpOrigin)
    (finalized : s'.coordinator.queue.finalizedOps = s.coordinator.queue.finalizedOps) :
    s'.Accounted known history where
  live := engine ▸ accounted.live
  covered := by
    rw [Covered, engine, origins]
    exact accounted.covered
  stored op := by rw [finalized, accounted.stored]
  finalized := finalized ▸ accounted.finalized
  rows := finalized ▸ accounted.rows

/-- The rows of a message: those of the operations that had none. -/
theorem added_rows (accounted : s.Accounted known history) {msg : OpsMessage}
    (minted : ∀ op ∈ toOperations msg, op ∈ known) {c : Coordinator} {relays : List Relay}
    {applied own released : List Operation} {session : Nat}
    (intake : Intake s.coordinator c history applied session (toOperations msg) own released relays) :
    ∃ added, logRows (s.coordinator.queue.finalizedOps ++ (own ++ released)) =
        logRows s.coordinator.queue.finalizedOps ++ added ∧
      (∀ op ∈ added.map Prod.snd, op ∈ own ++ released) ∧
      (∀ op ∈ applied, op ∈ added.map Prod.snd) ∧
      ((own ++ released).Nodup → (added.map Prod.snd).Nodup ∧
        (added.map Prod.snd).filter (fun op => decide (op ∉ history)) =
          (own ++ released).filter fun op => decide (op ∉ history)) := by
  have holds : Known known s.coordinator.engine history (toOperations msg) :=
    { accounted.live with minted }
  have inKnown := accounted.finalized_known
  obtain ⟨-, sameRows⟩ := logRows_sublist accounted.live.distinct inKnown
  obtain ⟨added, folded, sub, all, exact⟩ := foldl_insertRow
    (logRows s.coordinator.queue.finalizedOps)
    (numberedFrom (s.coordinator.queue.finalizedOps.length + 1) (own ++ released))
    (accounted.live.distinct.subset fun op member => by
      rw [map_snd_numberedFrom] at member
      rcases List.mem_append.mp member with old | new
      · exact inKnown op ((sameRows op).mp old)
      · exact holds.history_known intake.absorbed op (intake.mem_history holds op new))
  have inRows : ∀ op, op ∈ (logRows s.coordinator.queue.finalizedOps).map Prod.snd ↔ op ∈ history :=
    fun op => (sameRows op).trans (accounted.stored op)
  rw [map_snd_numberedFrom] at all exact
  simp only [inRows] at exact
  refine ⟨added, by rw [logRows_append, folded], fun op member => ?_, fun op member => ?_,
    fun nodup => ?_⟩
  · have from_ := (sub.map Prod.snd).subset member
    rwa [map_snd_numberedFrom] at from_
  · exact (List.mem_append.mp (all op (intake.finalized op member))).resolve_left fun old =>
      intake.fresh op member ((inRows op).mp old)
  · rw [exact nodup]
    exact ⟨nodup.filter _, by simp⟩

/-- The effect of one message. -/
theorem receive (accounted : s.Accounted known history) {session nowMs : Nat} {msg : OpsMessage}
    (minted : ∀ op ∈ toOperations msg, op ∈ known)
    (untangled : Untangled s.coordinator.engine (toOperations msg))
    (moved : step s (.receive session (toOperations msg) nowMs) = .ok s') :
    ∃ c relays applied own released,
      s' = { s with coordinator := c, received := s.received ++ toOperations msg } ∧
      Intake s.coordinator c history applied session (toOperations msg) own released relays ∧
      c.queue.finalizedOps = s.coordinator.queue.finalizedOps ++ (own ++ released) ∧
      s'.Accounted known (history ++ applied) := by
  have holds : Known known s.coordinator.engine history (toOperations msg) :=
    { accounted.live with minted }
  obtain ⟨c, relays, applied, own, released, ran, intake⟩ :=
    processIncomingOperation_intake session nowMs holds accounted.covered
  simp only [step, ran] at moved
  obtain rfl := Except.ok.inj moved
  have grown : c.queue.finalizedOps = s.coordinator.queue.finalizedOps ++ (own ++ released) := by
    rw [intake.queue, CommitQueue.finalizedOps_enqueueAll, List.flatMap_map, ← intake.relayed]
  obtain ⟨log, replayed, logRan, logSpec⟩ := accounted.finalized
  obtain ⟨log', more, logRan', logSpec'⟩ := logSpec.extend (own ++ released) holds intake untangled
    (fun op member => member) intake.finalized fun nodup => ⟨nodup, rfl⟩
  obtain ⟨rowLog, shown, rowRan, rowSpec⟩ := accounted.rows
  obtain ⟨added, rows, from_, all, exact⟩ := accounted.added_rows minted intake
  obtain ⟨rowLog', moreRows, rowRan', rowSpec'⟩ := rowSpec.extend (added.map Prod.snd) holds
    intake untangled from_ all exact
  refine ⟨c, relays, applied, own, released, rfl, intake, grown, ⟨intake.absorbed.built,
    intake.settled, accounted.live.distinct, holds.history_known intake.absorbed, fun op member =>
      holds.offered op (intake.absorbed.pendingFrom.subset member), by rintro _ ⟨⟩⟩, intake.covered,
    fun op => ?_, ?_, ?_⟩
  · simp only [grown]
    rw [List.mem_append, accounted.stored]
    refine ⟨fun member => ?_, fun member => ?_⟩
    · exact member.elim (List.mem_append_left _) (intake.mem_history holds op)
    · exact (List.mem_append.mp member).imp_right (intake.finalized op)
  · simp only [grown]
    exact ⟨log', _, (Engine.applyAll_append logRan _).trans logRan', logSpec'⟩
  · simp only [grown]
    rw [rows, List.map_append]
    exact ⟨rowLog', _, (Engine.applyAll_append rowRan _).trans rowRan', rowSpec'⟩

end Accounted

/-- What relates the live engine, the finalized operations and the rows of a server whose commits
succeed. -/
structure Mirrored (known : List Operation) (s : Server) (history : List Operation) : Prop where
  known : Known known s.coordinator.engine history []
  covered : Covered s.coordinator
  stored : ∀ op, op ∈ s.coordinator.queue.finalizedOps ↔ op ∈ history
  finalized : ∃ log replayed,
    (Engine.new serverReplicaId).applyAll s.coordinator.queue.finalizedOps = .ok log ∧
      Replayed log history replayed
  rows : ∃ log replayed,
    (Engine.new 0).applyAll ((logRows s.coordinator.queue.finalizedOps).map Prod.snd) = .ok log ∧
      Replayed log history replayed
  lined : s.coordinator.queue.Lined s.store
  snapshots : ∀ row, row ∈ s.store.snapshots ∨ row ∈ s.capturing →
    row.seq ≤ s.coordinator.queue.finalizedOps.length ∧ ∃ log, (Engine.new 0).applyAll
      ((logRows (s.coordinator.queue.finalizedOps.take row.seq)).map Prod.snd) = .ok log ∧
        log.text = .ok row.content

theorem mirrored_init (documentId : String) {known : List Operation}
    (distinct : DistinctIds known) : Mirrored known (init documentId) [] where
  known := ⟨built_new serverReplicaId, nofun, distinct, nofun, nofun, nofun⟩
  covered := nofun
  stored _ := Iff.rfl
  finalized := ⟨_, [], rfl, replayed_new serverReplicaId⟩
  rows := ⟨_, [], rfl, replayed_new 0⟩
  lined := CommitQueue.lined_init documentId
  snapshots row member := by simp [init, Store.empty] at member

namespace Mirrored

variable {known history : List Operation} {s s' : Server}

theorem matchesLog (mirrored : s.Mirrored known history) (apart : Network.SiblingsApart known) :
    s.MatchesLog := by
  have apart' : Network.SiblingsApart history := fun a b inA inB => apart a b
    (mirrored.known.applied _ inA) (mirrored.known.applied _ inB)
  obtain ⟨log, replayed, ran, spec⟩ := mirrored.finalized
  refine ⟨⟨log, ran, spec.empty, spec.nodes_eq mirrored.known.built apart'⟩,
    fun all liveText live => ?_⟩
  obtain ⟨log', replayed', ran', spec'⟩ := mirrored.rows
  have rows := mirrored.lined.drained all
  have inKnown : ∀ op ∈ s.coordinator.queue.finalizedOps, op ∈ known := fun op member =>
    mirrored.known.applied op ((mirrored.stored op).mp member)
  have shown : log'.text = .ok liveText := by
    rw [← live, Engine.text, Engine.text, Engine.visible, Engine.visible,
      spec'.nodes_eq mirrored.known.built apart']
  have snapshot : ∀ snapshot, s.store.latestSnapshot = some snapshot → ∃ replayed,
      replayThrough s.store.loadFullOperationLogWithSeq snapshot.seq = .ok replayed ∧
        replayed.text = .ok snapshot.content := fun row latest => by
    obtain ⟨-, log, ran, text⟩ := mirrored.snapshots row (Or.inl (List.mem_of_mem_head? latest))
    refine ⟨log, ?_, text⟩
    rwa [replayThrough, rows, takeWhile_logRows mirrored.known.distinct inKnown]
  have audited : ∀ text : Option (List Nat), (∀ t, text = some t → t = liveText) →
      auditDocument s.store text = .ok .ok := by
    intro text same
    have agrees : (text.any fun t => decide (t ≠ liveText)) = false := by
      cases text with
      | none => rfl
      | some t => simp [same t rfl]
    unfold auditDocument
    rw [rows] at snapshot ⊢
    simp only [ran', spec'.empty, shown, bind, Except.bind, List.length_nil, ne_eq, not_true_eq_false,
      if_false]
    cases latest : s.store.latestSnapshot with
    | none => simpa using agrees
    | some row =>
        obtain ⟨replayed, through, content⟩ := snapshot row latest
        simpa [through, content] using agrees
  exact ⟨audited none (by rintro _ ⟨⟩), audited (some liveText) fun t same => (Option.some.inj same).symm⟩

/-- An event of the queue or of the snapshot writer leaves the engine and the log alone. -/
theorem congr (mirrored : s.Mirrored known history)
    (engine : s'.coordinator.engine = s.coordinator.engine)
    (origins : s'.coordinator.pendingOpOrigin = s.coordinator.pendingOpOrigin)
    (finalized : s'.coordinator.queue.finalizedOps = s.coordinator.queue.finalizedOps)
    (lined : s'.coordinator.queue.Lined s'.store)
    (snapshots : ∀ row, row ∈ s'.store.snapshots ∨ row ∈ s'.capturing →
      row ∈ s.store.snapshots ∨ row ∈ s.capturing) : s'.Mirrored known history where
  known := engine ▸ mirrored.known
  covered := by
    rw [Covered, engine, origins]
    exact mirrored.covered
  stored op := by rw [finalized, mirrored.stored]
  finalized := finalized ▸ mirrored.finalized
  rows := finalized ▸ mirrored.rows
  lined := lined
  snapshots row member := finalized ▸ mirrored.snapshots row (snapshots row member)

theorem accounted (mirrored : s.Mirrored known history) : s.Accounted known history :=
  ⟨mirrored.known, mirrored.covered, mirrored.stored, mirrored.finalized, mirrored.rows⟩

theorem receive (mirrored : s.Mirrored known history) {session nowMs : Nat} {msg : OpsMessage}
    (minted : ∀ op ∈ toOperations msg, op ∈ known)
    (untangled : Untangled s.coordinator.engine (toOperations msg))
    (moved : step s (.receive session (toOperations msg) nowMs) = .ok s') :
    ∃ history', s'.Mirrored known history' := by
  obtain ⟨c, relays, applied, own, released, rfl, intake, grown, accounted⟩ :=
    mirrored.accounted.receive minted untangled moved
  have nonempty : ∀ batch ∈ relays.map (fun r => (r.origin, r.ops)), batch.2 ≠ [] :=
    fun batch member => by
      obtain ⟨r, inside, rfl⟩ := List.mem_map.mp member
      exact intake.nonempty r inside
  have lined := mirrored.lined.enqueueAll nonempty
  rw [← intake.queue] at lined
  refine ⟨history ++ applied, accounted.live, accounted.covered, accounted.stored,
    accounted.finalized, accounted.rows, lined, fun row member => ?_⟩
  simp only [grown]
  obtain ⟨low, through⟩ := mirrored.snapshots row member
  rw [List.length_append, List.take_append_of_le_length low]
  exact ⟨Nat.le_add_right_of_le low, through⟩

theorem capture (mirrored : s.Mirrored known history) (apart : Network.SiblingsApart known)
    (moved : step s .capture = .ok s') : s'.Mirrored known history := by
  obtain ⟨content, text, rfl⟩ := capture_ok moved
  obtain ⟨log, replayed, ran, spec⟩ := mirrored.rows
  refine ⟨mirrored.known, mirrored.covered, mirrored.stored, mirrored.finalized, mirrored.rows,
    mirrored.lined, fun row member => ?_⟩
  rw [List.mem_append, ← or_assoc] at member
  rcases member with old | new
  · exact mirrored.snapshots row old
  · obtain rfl := List.mem_singleton.mp new
    simp only [mirrored.lined.consecutive.currentSeq, List.take_length]
    refine ⟨le_refl _, log, ran, ?_⟩
    rw [← text, Engine.text, Engine.text, Engine.visible, Engine.visible,
      spec.nodes_eq mirrored.known.built fun a b inA inB => apart a b
        (mirrored.known.applied _ inA) (mirrored.known.applied _ inB)]

theorem writeSnapshot (mirrored : s.Mirrored known history) {k : Nat}
    (moved : step s (.writeSnapshot k) = .ok s') : s'.Mirrored known history := by
  obtain ⟨store, capturing, rfl, written⟩ := writeSnapshot_ok moved
  have lined : s.coordinator.queue.Lined store :=
    { mirrored.lined with
      queue := mirrored.lined.queue.congr_store written.operations
      landed := by
        have landed := mirrored.lined.landed
        rwa [Store.loadFullOperationLogWithSeq, ← written.operations] at landed }
  exact mirrored.congr rfl rfl rfl lined written.known

/-- An event of the commit queue. -/
theorem queueStep (mirrored : s.Mirrored known history) {store : Store} {queue : CommitQueue}
    (event : CommitQueue.Event) {acked : List Operation}
    (moved : CommitQueue.step (s.store, s.coordinator.queue) event = .ok (store, queue))
    (settled : ∀ origin ops, event ≠ .enqueue origin ops) (healthy : ∀ j, event ≠ .fail j) :
    Mirrored known { s.setQueue queue with store, acked } history := by
  obtain ⟨lined, finalized, snapshots⟩ := mirrored.lined.step moved settled healthy
  refine mirrored.congr rfl rfl finalized lined fun row member => ?_
  rwa [snapshots] at member

theorem step (mirrored : s.Mirrored known history) (apart : Network.SiblingsApart known)
    {event : ServerEvent} (healthy : event.Healthy) (minted : ∀ op ∈ offered event, op ∈ known)
    (untangled : s.UntangledEvent event) (moved : Server.step s event = .ok s') :
    ∃ history', s'.Mirrored known history' := by
  cases event with
  | receive session ops nowMs =>
      obtain ⟨msg, rfl⟩ := healthy
      exact mirrored.receive minted untangled moved
  | start i =>
      simp only [Server.step] at moved
      obtain ⟨queue, started, done⟩ := Throwing.ok_of_bind moved
      obtain rfl := Except.ok.inj done
      exact ⟨history, mirrored.queueStep (.start i) (by
        rw [CommitQueue.step, started]
        rfl) (by rintro _ _ ⟨⟩) (by rintro _ ⟨⟩)⟩
  | land i committedAtMs =>
      simp only [Server.step] at moved
      obtain ⟨⟨store, queue⟩, landed, done⟩ := Throwing.ok_of_bind moved
      obtain rfl := Except.ok.inj done
      exact ⟨history, mirrored.queueStep (.land i committedAtMs) (by
        rw [CommitQueue.step, landed]) (by rintro _ _ ⟨⟩) (by rintro _ ⟨⟩)⟩
  | succeed i =>
      simp only [Server.step] at moved
      obtain ⟨queue, succeeded, done⟩ := Throwing.ok_of_bind moved
      obtain rfl := Except.ok.inj done
      exact ⟨history, mirrored.queueStep (.succeed i) (by
        rw [CommitQueue.step, succeeded]
        rfl) (by rintro _ _ ⟨⟩) (by rintro _ ⟨⟩)⟩
  | fail i => exact absurd healthy id
  | capture => exact ⟨history, mirrored.capture apart moved⟩
  | writeSnapshot k => exact ⟨history, mirrored.writeSnapshot moved⟩
  | restart => exact absurd healthy id

end Mirrored

/-- Session 1's character, which session 2 deletes and revives. -/
def revivedChar : InsertOperation := ⟨⟨1, 1⟩, 97, none, .R, false⟩

def deletedOnce : DeleteOperation := ⟨⟨2, 2⟩, ⟨1, 1⟩⟩

def revivedOnce : UndeleteOperation := ⟨⟨3, 2⟩, ⟨1, 1⟩⟩

/-- The delete arrives before the character, the undelete after it. -/
def early : List ServerEvent :=
  [.receive 2 (toOperations (.opDelete deletedOnce)) 0,
    .receive 1 (toOperations (.opInsert revivedChar)) 0,
    .receive 2 (toOperations (.opUndelete revivedOnce)) 0, .start 0, .land 0 0, .succeed 0]

/-- Both arrive before the character. -/
def tangled : List ServerEvent :=
  [.receive 2 (toOperations (.opDelete deletedOnce)) 0,
    .receive 2 (toOperations (.opUndelete revivedOnce)) 0,
    .receive 1 (toOperations (.opInsert revivedChar)) 0,
    .start 0, .land 0 0, .succeed 0, .start 1, .land 1 0, .succeed 1, .start 2, .land 2 0, .succeed 2]

end Server

end ConfluenceEditor
