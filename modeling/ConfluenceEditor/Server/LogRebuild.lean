/-
Rebuilding the engine from the log while the server runs.

`rebuildFromLog` loads the whole log, replays it, and puts the replayed engine in the place of the
live one when their texts differ. The commit queue goes on meanwhile: what the live engine has
applied and the loaded log does not have yet is broadcast, committed and acknowledged, and the new
engine has never seen it (`rebuild_loses`). As long as a log that replaces the live engine has the
operations of every commit that has not failed, no operation is lost (`rebuild_keeps`).
-/

import ConfluenceEditor.Server.Durability
import ConfluenceEditor.Server.Intake
import ConfluenceEditor.Server.LogRows

namespace ConfluenceEditor

open Engine Coordinator

/-! ### The model -/

structure RebuildResult where
  changed : Bool
  textBefore : List Nat
  textAfter : List Nat

/-- What `rebuildFromLog` does once the log is loaded. -/
def Coordinator.rebuildFromLog (c : Coordinator) (documentId : String) (ops : List Operation) :
    Except String (RebuildResult × Coordinator) := do
  let rebuilt ← (Engine.new serverReplicaId).applyAll ops
  if rebuilt.pending.length ≠ 0 then
    .error ("DocumentCoordinator.rebuildFromLog: " ++ toString rebuilt.pending.length ++
      " operation(s) never became ready replaying the persisted log for document " ++ documentId ++
      " — refusing to rebuild from a log missing a causal dependency")
  else do
    let textBefore ← c.engine.text
    let textAfter ← rebuilt.text
    if textBefore = textAfter then .ok (⟨false, textBefore, textAfter⟩, c)
    else .ok (⟨true, textBefore, textAfter⟩, { c with engine := rebuilt })

/-- A server with the logs that calls of `rebuildFromLog` have loaded and not yet replayed. -/
structure Rebuilding where
  server : Server
  loaded : List (List Operation)

inductive RebuildEvent where
  | serve (event : ServerEvent)
  | load
  | finish (k : Nat)
  deriving DecidableEq, Repr

/-- A decoded message, or an event of a process that does not crash. -/
def ServerEvent.Steady : ServerEvent → Prop
  | .receive _ ops _ => ∃ msg, ops = toOperations msg
  | .restart => False
  | _ => True

namespace Rebuilding

def init (documentId : String) : Rebuilding := ⟨.init documentId, []⟩

def step (s : Rebuilding) : RebuildEvent → Except String Rebuilding
  | .serve event => do
      let server ← s.server.step event
      -- the calls end with the process
      .ok ⟨server, if event = .restart then [] else s.loaded⟩
  | .load => .ok { s with loaded := s.loaded ++ [s.server.store.logged] }
  | .finish k =>
      match s.loaded[k]? with
      | some ops =>
          let loaded := s.loaded.eraseIdx k
          match s.server.coordinator.rebuildFromLog s.server.store.documentId ops with
          | .ok (_, coordinator) => .ok ⟨{ s.server with coordinator }, loaded⟩
          -- the call is rejected
          | .error _ => .ok { s with loaded }
      | none => .error "no such call"

def Steady : RebuildEvent → Prop
  | .serve event => event.Steady
  | _ => True

def offered : RebuildEvent → List Operation
  | .serve event => Server.offered event
  | _ => []

/-- Once every commit is in the database, the live engine has applied every finalized operation, and
at every moment it has applied the acknowledged ones. -/
structure LosesNothing (s : Rebuilding) : Prop where
  finalized : (∀ c ∈ s.server.coordinator.queue.commits, c.phase.stored = true) →
    ∀ op ∈ s.server.coordinator.queue.finalizedOps,
      s.server.coordinator.engine.hasApplied op.id = true
  acked : ∀ op ∈ s.server.acked, s.server.coordinator.engine.hasApplied op.id = true

/-- The log replays without a gap, to another text than the live one. -/
def Differs (live : Engine) (ops : List Operation) : Prop :=
  ∃ rebuilt textBefore textAfter, (Engine.new serverReplicaId).applyAll ops = .ok rebuilt ∧
    rebuilt.pending = [] ∧ live.text = .ok textBefore ∧ rebuilt.text = .ok textAfter ∧
    textBefore ≠ textAfter

/-- A log that replaces the live engine has the operations of every commit that has not failed. -/
def Complete (s : Rebuilding) : RebuildEvent → Prop
  | .finish k => ∀ ops, s.loaded[k]? = some ops → Differs s.server.coordinator.engine ops →
      ∀ c ∈ s.server.coordinator.queue.commits, c.phase ≠ .failed → ∀ op ∈ c.ops, op ∈ ops
  | _ => True

end Rebuilding

/-! ### The commits of the queue -/

/-- An event of the queue never brings a failed commit back, and a commit that has succeeded stays
as it is. -/
theorem commits_of_step {store store' : Store} {q q' : CommitQueue} {event : CommitQueue.Event}
    (moved : CommitQueue.step (store, q) event = .ok (store', q'))
    (settled : ∀ origin ops, event ≠ .enqueue origin ops) :
    (∀ c ∈ q'.commits, ∃ d ∈ q.commits, c.ops = d.ops ∧ (c.phase ≠ .failed → d.phase ≠ .failed)) ∧
      ∀ c ∈ q.commits, c.phase = .succeeded → c ∈ q'.commits := by
  have phases : ∀ {i : Nat} {d : Commit} (phase : CommitPhase), q.commits[i]? = some d →
      d.phase ≠ .failed → d.phase ≠ .succeeded →
      (∀ c ∈ (q.setPhase i phase).commits, ∃ d ∈ q.commits, c.ops = d.ops ∧
        (c.phase ≠ .failed → d.phase ≠ .failed)) ∧
      ∀ c ∈ q.commits, c.phase = .succeeded → c ∈ (q.setPhase i phase).commits := by
    intro i d phase entry alive unfinished
    constructor
    · intro c member
      obtain ⟨j, d', old, rfl⟩ := CommitQueue.mem_setPhase member
      refine ⟨d', List.mem_of_getElem? old, rfl, fun kept => ?_⟩
      by_cases here : i = j
      · subst here
        rwa [← Option.some.inj (entry.symm.trans old)]
      · rwa [if_neg here] at kept
    · intro c member done
      obtain ⟨j, at?⟩ := List.getElem?_of_mem member
      have other : i ≠ j := fun here => by
        subst here
        rw [Option.some.inj (entry.symm.trans at?)] at unfinished
        exact unfinished done
      refine List.mem_of_getElem? (i := j) ?_
      rw [CommitQueue.setPhase, List.getElem?_modify_ne _ _ other, at?]
  obtain ⟨origin, ops, rfl, -⟩ | ⟨i, c, entry, ⟨rfl, queued, -, rfl, rfl⟩ |
    ⟨now, rfl, running, rfl, rfl⟩ | ⟨rfl, landed, rfl, rfl⟩ | ⟨rfl, started, rfl, rfl⟩⟩ :=
    CommitQueue.step_cases moved
  · exact absurd rfl (settled origin ops)
  · exact phases _ entry (by rw [queued]; rintro ⟨⟩) (by rw [queued]; rintro ⟨⟩)
  · exact phases _ entry (by rw [running]; rintro ⟨⟩) (by rw [running]; rintro ⟨⟩)
  · exact phases _ entry (by rw [landed]; rintro ⟨⟩) (by rw [landed]; rintro ⟨⟩)
  · exact phases _ entry (by rcases started with running | landed <;> simp [*])
      (by rcases started with running | landed <;> simp [*])

/-- A new row is an operation of a commit. -/
theorem logged_of_step {base : Nat} {store store' : Store} {q q' : CommitQueue}
    {event : CommitQueue.Event} (invariant : CommitQueue.Invariant base (store, q))
    (moved : CommitQueue.step (store, q) event = .ok (store', q')) :
    ∀ op ∈ store'.logged, op ∈ store.logged ∨ ∃ c ∈ q.commits, op ∈ c.ops := by
  intro op member
  obtain ⟨origin, ops, rfl, -, rfl, rfl⟩ | ⟨i, c, entry, ⟨rfl, -, -, rfl, rfl⟩ |
    ⟨now, rfl, running, rfl, rfl⟩ | ⟨rfl, -, rfl, rfl⟩ | ⟨rfl, -, rfl, rfl⟩⟩ :=
    CommitQueue.step_cases moved
  · exact Or.inl member
  · exact Or.inl member
  · have inCommits := List.mem_of_getElem? entry
    obtain ⟨new, spec, -⟩ := store.commitOperations_spec c.startSeq now c.ops
      (invariant.nonempty c inCommits) (invariant.below entry running)
    obtain ⟨row, inside, rfl⟩ := List.mem_map.mp member
    rw [spec.operations] at inside
    rcases List.mem_append.mp inside with old | added
    · exact Or.inl (List.mem_map_of_mem old)
    · obtain ⟨k, named, -⟩ := spec.place row added
      exact Or.inr ⟨c, inCommits, List.mem_of_getElem? named⟩
  · exact Or.inl member
  · exact Or.inl member

namespace Rebuilding

/-- What the live engine, the queue and the loaded logs have in common. -/
structure Intact (known : List Operation) (s : Rebuilding) (history : List Operation) : Prop where
  live : Known known s.server.coordinator.engine history []
  covered : Covered s.server.coordinator
  queue : ∃ base, CommitQueue.Invariant base (s.server.store, s.server.coordinator.queue)
  carried : ∀ c ∈ s.server.coordinator.queue.commits, c.phase ≠ .failed → ∀ op ∈ c.ops, op ∈ history
  minted : ∀ c ∈ s.server.coordinator.queue.commits, ∀ op ∈ c.ops, op ∈ known
  logged : ∀ op ∈ s.server.store.logged, op ∈ known
  loaded : ∀ ops ∈ s.loaded, ∀ op ∈ ops, op ∈ known
  acked : ∀ op ∈ s.server.acked, ∃ c ∈ s.server.coordinator.queue.commits,
    c.phase = .succeeded ∧ op ∈ c.ops

theorem intact_init (documentId : String) {known : List Operation} (distinct : DistinctIds known) :
    Intact known (init documentId) [] where
  live := ⟨built_new serverReplicaId, nofun, distinct, nofun, nofun, nofun⟩
  covered := nofun
  queue := ⟨0, CommitQueue.invariant_resume (.empty documentId) nofun⟩
  carried := nofun
  minted := nofun
  logged := nofun
  loaded := nofun
  acked := nofun

namespace Intact

variable {known history : List Operation} {s s' : Rebuilding}

theorem losesNothing (intact : s.Intact known history) : s.LosesNothing := by
  have built := intact.live.built
  constructor
  · intro all op member
    obtain ⟨c, inCommits, inOps⟩ := List.mem_flatMap.mp member
    have alive : c.phase ≠ .failed := fun failed => by
      have stored := all c inCommits
      rw [failed] at stored
      cases stored
    exact built.hasApplied_iff.mpr ⟨op, intact.carried c inCommits alive op inOps, rfl⟩
  · intro op member
    obtain ⟨c, inCommits, done, inOps⟩ := intact.acked op member
    exact built.hasApplied_iff.mpr
      ⟨op, intact.carried c inCommits (by rw [done]; nofun) op inOps, rfl⟩

/-! ### One event -/

theorem receive (intact : s.Intact known history) {session nowMs : Nat} {msg : OpsMessage}
    (minted : ∀ op ∈ toOperations msg, op ∈ known) {server : Server}
    (moved : s.server.step (.receive session (toOperations msg) nowMs) = .ok server) :
    ∃ history', Intact known { s with server } history' := by
  have holds : Known known s.server.coordinator.engine history (toOperations msg) :=
    { intact.live with minted }
  obtain ⟨c, relays, applied, own, released, ran, intake⟩ :=
    processIncomingOperation_intake session nowMs holds intact.covered
  simp only [Server.step, ran] at moved
  obtain rfl := Except.ok.inj moved
  obtain ⟨base, inv⟩ := intact.queue
  obtain ⟨new, commits, -, same⟩ := commits_enqueueAll intake.numbered
  rw [← intake.queue] at commits
  have finalized : ∀ d ∈ new, ∀ op ∈ d.ops, op ∈ history ++ applied := fun d member op inOps => by
    refine intake.mem_history holds op ?_
    rw [← intake.relayed]
    have listed : (d.origin, d.startSeq, d.ops) ∈ relays.map fun f => (f.origin, f.seq, f.ops) :=
      same ▸ List.mem_map_of_mem member
    obtain ⟨relay, inside, named⟩ := List.mem_map.mp listed
    refine List.mem_flatMap.mpr ⟨relay, inside, ?_⟩
    rw [(Prod.mk.inj (Prod.mk.inj named).2).2]
    exact inOps
  have inKnown := holds.history_known intake.absorbed
  refine ⟨history ++ applied, ⟨intake.absorbed.built, intake.settled, intact.live.distinct, inKnown,
    fun op member => holds.offered op (intake.absorbed.pendingFrom.subset member), by rintro _ ⟨⟩⟩,
    intake.covered, ⟨base, ?_⟩, fun d member alive op inOps => ?_, fun d member op inOps => ?_,
    intact.logged, intact.loaded, fun op member => ?_⟩
  · simp only [intake.queue]
    refine inv.enqueueAll fun batch member => ?_
    obtain ⟨r, inside, rfl⟩ := List.mem_map.mp member
    exact intake.nonempty r inside
  · rw [commits] at member
    rcases List.mem_append.mp member with old | added
    · exact List.mem_append_left _ (intact.carried d old alive op inOps)
    · exact finalized d added op inOps
  · rw [commits] at member
    rcases List.mem_append.mp member with old | added
    · exact intact.minted d old op inOps
    · exact inKnown op (finalized d added op inOps)
  · obtain ⟨d, inCommits, done, inOps⟩ := intact.acked op member
    refine ⟨d, ?_, done, inOps⟩
    simp only [commits]
    exact List.mem_append_left _ inCommits

/-- An event of the commit queue. -/
theorem queueStep (intact : s.Intact known history) {store : Store} {queue : CommitQueue}
    (event : CommitQueue.Event) {acked : List Operation}
    (moved : CommitQueue.step (s.server.store, s.server.coordinator.queue) event = .ok (store, queue))
    (settled : ∀ origin ops, event ≠ .enqueue origin ops)
    (acks : ∀ op ∈ acked, op ∈ s.server.acked ∨ ∃ c ∈ queue.commits, c.phase = .succeeded ∧ op ∈ c.ops) :
    Intact known { s with server := { s.server.setQueue queue with store, acked } } history := by
  obtain ⟨base, inv⟩ := intact.queue
  obtain ⟨kept, finished⟩ := commits_of_step moved settled
  refine ⟨intact.live, intact.covered, ⟨base, inv.step moved⟩, fun c member alive op inOps => ?_,
    fun c member op inOps => ?_, fun op member => ?_, intact.loaded, fun op member => ?_⟩
  · obtain ⟨d, old, same, alive'⟩ := kept c member
    exact intact.carried d old (alive' alive) op (same ▸ inOps)
  · obtain ⟨d, old, same, -⟩ := kept c member
    exact intact.minted d old op (same ▸ inOps)
  · rcases logged_of_step inv moved op member with old | ⟨c, inCommits, inOps⟩
    · exact intact.logged op old
    · exact intact.minted c inCommits op inOps
  · rcases acks op member with old | new
    · obtain ⟨c, inCommits, done, inOps⟩ := intact.acked op old
      exact ⟨c, finished c inCommits done, done, inOps⟩
    · exact new

/-- The promise of a commit is fulfilled: what is acknowledged is what the commit has. -/
theorem succeed (intact : s.Intact known history) {i : Nat} {server : Server}
    (moved : s.server.step (.succeed i) = .ok server) : Intact known { s with server } history := by
  simp only [Server.step] at moved
  obtain ⟨queue, succeeded, done⟩ := Throwing.ok_of_bind moved
  obtain rfl := Except.ok.inj done
  refine intact.queueStep (.succeed i) (by rw [CommitQueue.step, succeeded]; rfl) (by rintro _ _ ⟨⟩)
    fun op member => (List.mem_append.mp member).imp_right fun new => ?_
  unfold CommitQueue.succeed at succeeded
  unfold Server.opsOf at new
  split at succeeded
  · rename_i c entry
    rw [entry] at new
    split_ifs at succeeded with landed
    obtain rfl := Except.ok.inj succeeded
    refine ⟨{ c with phase := .succeeded }, List.mem_of_getElem? (i := i) ?_, rfl, new⟩
    rw [CommitQueue.setPhase, List.getElem?_modify_eq, entry]
    rfl
  · cases succeeded

/-- An event of the server that touches neither the engine nor the queue nor the rows. -/
theorem congr (intact : s.Intact known history) {server : Server}
    (coordinator : server.coordinator = s.server.coordinator)
    (operations : server.store.operations = s.server.store.operations)
    (acked : server.acked = s.server.acked) {loaded : List (List Operation)}
    (inside : ∀ ops ∈ loaded, ∀ op ∈ ops, op ∈ known) : Intact known ⟨server, loaded⟩ history where
  live := coordinator ▸ intact.live
  covered := coordinator ▸ intact.covered
  queue := by
    obtain ⟨base, inv⟩ := intact.queue
    refine ⟨base, ?_⟩
    simp only [coordinator]
    exact inv.congr_store operations
  carried := coordinator ▸ intact.carried
  minted := coordinator ▸ intact.minted
  logged := by
    simp only [Store.logged, operations]
    exact intact.logged
  loaded := inside
  acked := by
    simp only [acked, coordinator]
    exact intact.acked

theorem serve (intact : s.Intact known history) {event : ServerEvent} (steady : event.Steady)
    (minted : ∀ op ∈ Server.offered event, op ∈ known) {server : Server}
    (moved : s.server.step event = .ok server) :
    ∃ history', Intact known { s with server } history' := by
  cases event with
  | receive session ops nowMs =>
      obtain ⟨msg, rfl⟩ := steady
      exact intact.receive minted moved
  | start i =>
      simp only [Server.step] at moved
      obtain ⟨queue, started, done⟩ := Throwing.ok_of_bind moved
      obtain rfl := Except.ok.inj done
      exact ⟨history, intact.queueStep (.start i) (by rw [CommitQueue.step, started]; rfl) (by rintro _ _ ⟨⟩)
        fun _ member => Or.inl member⟩
  | land i committedAtMs =>
      simp only [Server.step] at moved
      obtain ⟨⟨store, queue⟩, landed, done⟩ := Throwing.ok_of_bind moved
      obtain rfl := Except.ok.inj done
      exact ⟨history, intact.queueStep (.land i committedAtMs) (by rw [CommitQueue.step, landed])
        (by rintro _ _ ⟨⟩) fun _ member => Or.inl member⟩
  | succeed i => exact ⟨history, intact.succeed moved⟩
  | fail i =>
      simp only [Server.step] at moved
      obtain ⟨queue, failed, done⟩ := Throwing.ok_of_bind moved
      obtain rfl := Except.ok.inj done
      exact ⟨history, intact.queueStep (.fail i) (by rw [CommitQueue.step, failed]; rfl) (by rintro _ _ ⟨⟩)
        fun _ member => Or.inl member⟩
  | capture =>
      simp only [Server.step] at moved
      obtain ⟨row, -, done⟩ := Throwing.ok_of_bind moved
      obtain rfl := Except.ok.inj done
      refine ⟨history, intact.congr ?_ ?_ ?_ intact.loaded⟩
      all_goals rfl
  | writeSnapshot k =>
      simp only [Server.step] at moved
      split at moved
      · rename_i row entry
        obtain rfl := Except.ok.inj moved
        refine ⟨history, intact.congr ?_ ?_ ?_ intact.loaded⟩
        · rfl
        · cases written : s.server.store.writeSnapshot row with
          | none => rfl
          | some store => exact (Store.writeSnapshot_spec written).2.1
        · rfl
      · cases moved
  | restart => exact absurd steady id

/-- The replayed engine: it has applied exactly the operations of the log. -/
theorem finish (intact : s.Intact known history) {k : Nat} (complete : s.Complete (.finish k))
    (moved : step s (.finish k) = .ok s') : ∃ history', Intact known s' history' := by
  simp only [step] at moved
  split at moved
  case h_2 => cases moved
  rename_i ops entry
  have remaining : ∀ ops ∈ s.loaded.eraseIdx k, ∀ op ∈ ops, op ∈ known := fun ops member =>
    intact.loaded ops (List.mem_of_mem_eraseIdx member)
  have fromLog := intact.loaded ops (List.mem_of_getElem? entry)
  split at moved
  case h_2 =>
    obtain rfl := Except.ok.inj moved
    exact ⟨history, intact.congr rfl rfl rfl remaining⟩
  rename_i result coordinator rebuilt
  obtain rfl := Except.ok.inj moved
  unfold rebuildFromLog at rebuilt
  obtain ⟨e, replayed, rebuilt⟩ := Throwing.ok_of_bind rebuilt
  split_ifs at rebuilt with stuck
  obtain ⟨textBefore, before, rebuilt⟩ := Throwing.ok_of_bind rebuilt
  obtain ⟨textAfter, after, rebuilt⟩ := Throwing.ok_of_bind rebuilt
  split_ifs at rebuilt with same
  · -- the live engine stays
    obtain ⟨-, rfl⟩ := Prod.mk.inj (Except.ok.inj rebuilt)
    exact ⟨history, intact.congr rfl rfl rfl remaining⟩
  · obtain ⟨-, rfl⟩ := Prod.mk.inj (Except.ok.inj rebuilt)
    have empty : e.pending = [] := List.length_eq_zero_iff.mp (not_not.mp stuck)
    have carried := complete ops entry ⟨e, textBefore, textAfter, replayed, empty, before, after, same⟩
    obtain ⟨e', history', ran, absorbed, settled⟩ :=
      (built_new serverReplicaId).applyAll_spec ops
    obtain rfl := Except.ok.inj (replayed.symm.trans ran)
    have applied : ∀ op ∈ history', op ∈ known := fun op member =>
      fromLog op (by simpa [Engine.new] using absorbed.appliedFrom op member)
    refine ⟨history', ⟨absorbed.built, settled (settled_new serverReplicaId), intact.live.distinct,
      applied, fun op member => ?_, by rintro _ ⟨⟩⟩, fun op member => ?_, intact.queue,
      fun c member alive op inOps => ?_, intact.minted, intact.logged, remaining, intact.acked⟩
    · rw [empty] at member
      cases member
    · simp only [empty] at member
      cases member
    · have offered := carried c member alive op inOps
      refine (absorbed.built.hasApplied_iff_mem intact.live.distinct applied
        (fromLog op offered)).mp ((absorbed.complete op ?_).resolve_left ?_)
      · exact List.mem_append_right _ offered
      · rw [empty]
        rintro ⟨⟩

theorem step (intact : s.Intact known history) {event : RebuildEvent} (steady : Steady event)
    (complete : s.Complete event) (minted : ∀ op ∈ offered event, op ∈ known)
    (moved : Rebuilding.step s event = .ok s') : ∃ history', Intact known s' history' := by
  cases event with
  | serve event =>
      simp only [Rebuilding.step] at moved
      obtain ⟨server, served, done⟩ := Throwing.ok_of_bind moved
      obtain rfl := Except.ok.inj done
      have running : event ≠ .restart := fun restart => by
        subst restart
        exact steady
      rw [if_neg running]
      exact intact.serve steady minted served
  | load =>
      obtain rfl := Except.ok.inj moved
      refine ⟨history, intact.congr rfl rfl rfl fun ops member => ?_⟩
      rcases List.mem_append.mp member with old | new
      · exact intact.loaded ops old
      · rw [List.mem_singleton.mp new]
        exact intact.logged
  | finish k => exact intact.finish complete moved

end Intact

/-- In every run of the write path with any number of rebuilds, each of which loads the log at one
moment and replays it at any later one: if a log that replaces the live engine has the operations of
every commit that has not failed, then at every moment the live engine has applied every
acknowledged operation, and every finalized one once all commits are in the database. -/
theorem rebuild_keeps (documentId : String) (events : List RebuildEvent)
    (steady : ∀ event ∈ events, Steady event) (distinct : DistinctIds (events.flatMap offered))
    (complete : Run.Each step Complete (init documentId) events) :
    Run.Always step LosesNothing (init documentId) events := by
  have each := complete.and_label (D := fun event => Steady event ∧ ∀ op ∈ offered event,
    op ∈ events.flatMap offered) fun event member => ⟨steady event member, fun op inside =>
      List.mem_flatMap.mpr ⟨event, member, inside⟩⟩
  refine (Run.always_of_each (P := fun s => ∃ history, s.Intact (events.flatMap offered) history)
    (fun s event s' intact met moved => ?_) ⟨[], intact_init documentId distinct⟩ each).imp
    fun s intact => ?_
  · obtain ⟨history, intact⟩ := intact
    exact intact.step met.2.1 met.1 met.2.2 moved
  · obtain ⟨history, intact⟩ := intact
    exact intact.losesNothing

/-- One character each by two sessions. -/
def firstEntry : InsertOperation := ⟨⟨1, 1⟩, 97, none, .R, false⟩

def secondEntry : InsertOperation := ⟨⟨1, 2⟩, 98, none, .R, false⟩

def typing (session : Nat) (ins : InsertOperation) : RebuildEvent :=
  .serve (.receive session (toOperations (.opInsert ins)) 0)

def committing (i : Nat) : List RebuildEvent :=
  [.serve (.start i), .serve (.land i 0), .serve (.succeed i)]

/-- The commit of the first character fails, so the rebuild takes it out of the document; the second
one is typed afterwards and committed. -/
def repaired : List RebuildEvent :=
  [typing 1 firstEntry, .serve (.start 0), .serve (.fail 0), .load, .finish 0,
    typing 2 secondEntry] ++ committing 1

/-- The log is loaded and replayed while the commit of the character waits. -/
def hurried : List RebuildEvent := [typing 1 firstEntry, .load, .finish 0] ++ committing 0

theorem rebuild_keeps_repaired :
    ∃ s, Run.run step (init "document") repaired = .ok s ∧
      s.server.acked = [.insert secondEntry] ∧ s.server.coordinator.engine.nodes.length = 1 ∧
      s.LosesNothing := by
  obtain ⟨s, ran, checked⟩ := Run.exists_of_ends (Run.run step (init "document") repaired)
    (fun s => decide (s.server.acked = [Operation.insert secondEntry] ∧
      s.server.coordinator.engine.nodes.length = 1)) (by decide)
  obtain ⟨acked, single⟩ := of_decide_eq_true checked
  -- when the log is replayed, the only commit has failed
  have failed : Run.Each step (fun s event => (match event with
      | .finish _ => s.server.coordinator.queue.commits.all fun c => decide (c.phase = .failed)
      | _ => true) = true) (init "document") repaired := by decide
  refine ⟨s, ran, acked, single, (rebuild_keeps "document" repaired (fun event member => ?_)
    (by decide) ?_).last ran⟩
  · simp only [repaired, committing, typing, List.cons_append, List.nil_append, List.mem_cons,
      List.not_mem_nil, or_false] at member
    rcases member with rfl | rfl | rfl | rfl | rfl | rfl | member
    · exact ⟨_, rfl⟩
    · trivial
    · trivial
    · trivial
    · trivial
    · exact ⟨_, rfl⟩
    · rcases member with rfl | rfl | rfl
      all_goals trivial
  · refine failed.imp fun s event only => ?_
    cases event with
    | finish k =>
        intro ops entry differs c member alive
        exact absurd (of_decide_eq_true (List.all_eq_true.mp only c member)) alive
    | serve event => trivial
    | load => trivial

/-- The character is acknowledged, and the live engine has never seen it. -/
theorem rebuild_loses : ¬ ∀ (documentId : String) (events : List RebuildEvent),
    (∀ event ∈ events, Steady event) → DistinctIds (events.flatMap offered) →
      Run.Always step LosesNothing (init documentId) events := by
  intro keeps
  obtain ⟨s, ran, checked⟩ := Run.exists_of_ends (Run.run step (init "document") hurried)
    (fun s => decide (Operation.insert firstEntry ∈ s.server.acked ∧
      s.server.coordinator.engine.hasApplied firstEntry.id = false)) (by decide)
  obtain ⟨acked, missing⟩ := of_decide_eq_true checked
  have always := keeps "document" hurried (fun event member => ?_) (by decide)
  · have applied := (always.last ran).acked _ acked
    rw [show (Operation.insert firstEntry).id = firstEntry.id from rfl, missing] at applied
    cases applied
  · simp only [hurried, committing, typing, List.cons_append, List.nil_append, List.mem_cons,
      List.not_mem_nil, or_false] at member
    rcases member with rfl | rfl | rfl | member
    · exact ⟨_, rfl⟩
    · trivial
    · trivial
    · rcases member with rfl | rfl | rfl
      all_goals trivial

end Rebuilding

end ConfluenceEditor
