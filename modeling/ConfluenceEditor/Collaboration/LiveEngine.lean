/-
What the live engine of a document stands behind.

An operation is handed to the commit queue once the engine has applied it, and a row of the table was
in a commit. A listing names what the engine has applied when it is computed. So the live engine has
applied every operation that is queued, stored or listed, and it forgets nothing while the process
runs. A restart replaces it by the engine of a warm start: `engine_vouches_iff` says that the live
engine stands behind all of this exactly as long as every restart brings it back.
-/

import ConfluenceEditor.Collaboration.SafeDrops
import ConfluenceEditor.Engine.Calls
import ConfluenceEditor.Server.LogRebuild

namespace ConfluenceEditor

open Engine Coordinator

/-- What is not buffered is applied. -/
theorem Engine.applied_of_unbuffered {e e' : Engine} {op : Operation} {context : Option DeleteContext}
    (applied : e.applyRemote op context = .ok (false, e')) : op.id ∈ e'.applied := by
  obtain ⟨contexts, recorded⟩ := Built.recordContext_eq e op context
  rw [applyRemote, recorded] at applied
  split_ifs at applied with known ready
  · obtain ⟨-, rfl⟩ := Prod.mk.inj (Except.ok.inj applied)
    exact of_decide_eq_true known
  · obtain ⟨e₁, done, applied⟩ := Throwing.ok_of_bind applied
    obtain ⟨e₂, drained, applied⟩ := Throwing.ok_of_bind applied
    obtain ⟨-, rfl⟩ := Prod.mk.inj (Except.ok.inj applied)
    obtain ⟨e₃, -, marked⟩ := Throwing.ok_of_bind done
    obtain rfl := Except.ok.inj marked
    exact (drainLoop_moves _ drained).applied_mono List.mem_cons_self
  · cases (Prod.mk.inj (Except.ok.inj applied)).1

namespace Coordinator

variable {e e' : Engine} {ops : List Operation}

/-- A message leaves what is applied, and what waited waits or is applied. -/
theorem applyMessage_keeps {results : List (Operation × Bool)}
    (applied : applyMessage e ops = .ok (results, e')) : (∀ id ∈ e.applied, id ∈ e'.applied) ∧
      (∀ op ∈ e.pending, op ∈ e'.pending ∨ op.id ∈ e'.applied) ∧
      ∀ r ∈ results, r.2 = false → r.1.id ∈ e'.applied := by
  induction ops generalizing e results with
  | nil =>
      obtain ⟨rfl, rfl⟩ := Prod.mk.inj (Except.ok.inj applied)
      exact ⟨fun _ known => known, fun _ waits => Or.inl waits, nofun⟩
  | cons op ops ih =>
      obtain ⟨buffered, e₁, rest, first, later, rfl⟩ := applyMessage_cons applied
      obtain ⟨lasting, released, finalized⟩ := ih later
      have complete := applyRemote_complete first
      refine ⟨fun id known => ?_, fun x waits => ?_, fun r member unbuffered => ?_⟩
      · exact lasting id ((applyRemote_moves first).applied_mono known)
      · rcases complete x (List.mem_append_left _ waits) with stays | known
        · exact released x stays
        · exact Or.inr (lasting x.id known)
      · rcases List.mem_cons.mp member with rfl | inside
        · obtain rfl : buffered = false := unbuffered
          exact lasting _ (applied_of_unbuffered first)
        · exact finalized r inside unbuffered

/-- What a message hands to the commit queue is applied. -/
theorem processIncomingOperation_keeps {c c' : Coordinator} {session nowMs : Nat}
    {relays : List Relay}
    (processed : processIncomingOperation c session ops nowMs = .ok (c', relays)) :
    (∀ id ∈ c.engine.applied, id ∈ c'.engine.applied) ∧
      ∃ batches, c'.queue = c.queue.enqueueAll batches ∧
        ∀ batch ∈ batches, ∀ op ∈ batch.2, op.id ∈ c'.engine.applied := by
  unfold processIncomingOperation at processed
  split_ifs at processed with nothing
  · obtain ⟨rfl, -⟩ := Prod.mk.inj (Except.ok.inj processed)
    exact ⟨fun _ known => known, [], rfl, nofun⟩
  obtain ⟨⟨results, e'⟩, applied, done⟩ := Throwing.ok_of_bind processed
  obtain ⟨lasting, released, finalized⟩ := applyMessage_keeps applied
  -- the frames are made of what was not buffered and of what left the buffer
  have handed : ∀ (origins : Identifier → Option Nat) (batches : List (Nat × List Operation)),
      (∀ batch ∈ batches, ∀ op ∈ batch.2, op.id ∈ e'.applied) →
      ∀ c' relays, finalize nowMs { c with engine := e', pendingOpOrigin := origins } batches =
        (c', relays) → (∀ id ∈ c.engine.applied, id ∈ c'.engine.applied) ∧
          ∃ batches, c'.queue = c.queue.enqueueAll batches ∧
            ∀ batch ∈ batches, ∀ op ∈ batch.2, op.id ∈ c'.engine.applied := by
    intro origins batches items c' relays same
    obtain ⟨contexts, final⟩ :=
      finalize_eq nowMs { c with engine := e', pendingOpOrigin := origins } batches
    rw [same] at final
    rw [show c' = _ from final]
    exact ⟨lasting, batches, rfl, items⟩
  simp only at done
  split_ifs at done with fast
  · refine handed _ _ (fun batch member => ?_) c' relays (Except.ok.inj done)
    rw [List.mem_singleton.mp member]
    intro op inside
    rw [Bool.and_eq_true, List.all_eq_true] at fast
    rw [← applyMessage_ops applied] at inside
    obtain ⟨r, result, rfl⟩ := List.mem_map.mp inside
    exact finalized r result (by simpa using fast.1 r result)
  · refine handed _ _ (fun batch member => ?_) c' relays (Except.ok.inj done)
    rcases List.mem_append.mp member with own | resolved
    · obtain ⟨r, result, rfl⟩ := List.mem_map.mp own
      obtain ⟨result, unbuffered⟩ := List.mem_filter.mp result
      intro op inside
      rw [List.mem_singleton.mp inside]
      exact finalized r result (by simpa using unbuffered)
    · obtain ⟨op, left, named⟩ := List.mem_filterMap.mp resolved
      obtain ⟨origin, -, rfl⟩ := Option.map_eq_some_iff.mp named
      intro x inside
      rw [List.mem_singleton.mp inside]
      obtain ⟨waited, gone⟩ := mem_sideEffectResolved left
      exact (released op waited).resolve_left gone

end Coordinator

namespace Server

/-- The live engine has applied what is in the commit queue and in the table of operations. -/
structure Vouched (s : Server) : Prop where
  commits : ∀ c ∈ s.coordinator.queue.commits, ∀ op ∈ c.ops, op.id ∈ s.coordinator.engine.applied
  stored : ∀ op ∈ s.store.logged, op.id ∈ s.coordinator.engine.applied

namespace Vouched

variable {s s' : Server}

theorem init (documentId : String) : (Server.init documentId).Vouched where
  commits := nofun
  stored := nofun

/-- A commit has moved on: the engine is the same, and a new row was in a commit. -/
theorem queueStep (vouched : s.Vouched) (rows : s.Rows) (event : CommitQueue.Event)
    (engine : s'.coordinator.engine = s.coordinator.engine)
    (moved : CommitQueue.step (s.store, s.coordinator.queue) event =
      .ok (s'.store, s'.coordinator.queue))
    (settled : ∀ origin ops, event ≠ .enqueue origin ops) : s'.Vouched := by
  obtain ⟨base, invariant⟩ := rows.queue
  refine ⟨fun c member op inside => ?_, fun op member => ?_⟩
  · obtain ⟨d, old, same, -⟩ := (commits_of_step moved settled).1 c member
    rw [engine]
    exact vouched.commits d old op (same ▸ inside)
  · rw [engine]
    rcases logged_of_step invariant moved op member with old | ⟨c, inCommits, inside⟩
    · exact vouched.stored op old
    · exact vouched.commits c inCommits op inside

/-- Every event but a restart keeps this, and the engine forgets nothing. -/
theorem step (vouched : s.Vouched) (rows : s.Rows) {event : ServerEvent} (alive : event ≠ .restart)
    (moved : s.step event = .ok s') : s'.Vouched ∧
      ∀ id ∈ s.coordinator.engine.applied, id ∈ s'.coordinator.engine.applied := by
  cases event with
  | receive session ops nowMs =>
      obtain ⟨⟨c, relays⟩, processed, done⟩ := Throwing.ok_of_bind moved
      obtain rfl := Except.ok.inj done
      obtain ⟨lasting, batches, queue, handed⟩ := processIncomingOperation_keeps processed
      refine ⟨⟨fun d member op inside => ?_, fun op member => ?_⟩, lasting⟩
      · have finalized : op ∈ c.queue.finalizedOps := List.mem_flatMap.mpr ⟨d, member, inside⟩
        rw [queue, CommitQueue.finalizedOps_enqueueAll] at finalized
        rcases List.mem_append.mp finalized with old | new
        · obtain ⟨d', before, there⟩ := List.mem_flatMap.mp old
          exact lasting op.id (vouched.commits d' before op there)
        · obtain ⟨batch, own, there⟩ := List.mem_flatMap.mp new
          exact handed batch own op there
      · exact lasting op.id (vouched.stored op member)
  | start i =>
      obtain ⟨queue, started, done⟩ := Throwing.ok_of_bind moved
      obtain rfl := Except.ok.inj done
      refine ⟨vouched.queueStep rows (.start i) rfl ?_ (fun _ _ same => by cases same),
        fun _ known => known⟩
      rw [CommitQueue.step, started]
      rfl
  | land i now =>
      obtain ⟨⟨store, queue⟩, landed, done⟩ := Throwing.ok_of_bind moved
      obtain rfl := Except.ok.inj done
      exact ⟨vouched.queueStep rows (.land i now) rfl landed (fun _ _ same => by cases same),
        fun _ known => known⟩
  | succeed i =>
      obtain ⟨queue, fulfilled, done⟩ := Throwing.ok_of_bind moved
      obtain rfl := Except.ok.inj done
      refine ⟨vouched.queueStep rows (.succeed i) rfl ?_ (fun _ _ same => by cases same),
        fun _ known => known⟩
      rw [CommitQueue.step, fulfilled]
      rfl
  | fail i =>
      obtain ⟨queue, failed, done⟩ := Throwing.ok_of_bind moved
      obtain rfl := Except.ok.inj done
      refine ⟨vouched.queueStep rows (.fail i) rfl ?_ (fun _ _ same => by cases same),
        fun _ known => known⟩
      rw [CommitQueue.step, failed]
      rfl
  | capture =>
      obtain ⟨row, -, done⟩ := Throwing.ok_of_bind moved
      obtain rfl := Except.ok.inj done
      exact ⟨⟨vouched.commits, vouched.stored⟩, fun _ known => known⟩
  | writeSnapshot k =>
      simp only [Server.step] at moved
      split at moved
      case h_2 => cases moved
      rename_i row _
      obtain rfl := Except.ok.inj moved
      refine ⟨⟨vouched.commits, fun op member => vouched.stored op ?_⟩, fun _ known => known⟩
      cases written : s.store.writeSnapshot row with
      | none =>
          rw [written] at member
          exact member
      | some store =>
          rw [written] at member
          have operations := (Store.writeSnapshot_spec written).2.1
          rw [Store.logged, Option.getD_some, operations] at member
          exact member
  | restart => exact absurd rfl alive

end Vouched

end Server

namespace Collaboration

/-- The live engine has applied everything that is queued for a commit, that has a row, or that an
engine of a listing had applied. -/
structure Vouched (s : Collaboration) : Prop where
  server : s.server.Vouched
  listed : ∀ listing ∈ s.listings, ∀ id ∈ listing.2.2.applied,
    id ∈ s.server.coordinator.engine.applied

/-- A restart would bring back everything that has a row or that an engine of a listing had
applied. -/
def Recovers (s : Collaboration) : Prop :=
  match warmStart s.server.store with
  | .ok c => (∀ op ∈ s.server.store.logged, op.id ∈ c.engine.applied) ∧
      ∀ listing ∈ s.listings, ∀ id ∈ listing.2.2.applied, id ∈ c.engine.applied
  | .error _ => True

instance (s : Collaboration) : Decidable s.Recovers := by
  unfold Recovers
  split <;> infer_instance

variable {s s' : Collaboration} {settings : Settings} {event : CollaborationEvent}

theorem vouched_init (documentId : String) : (init documentId).Vouched where
  server := .init documentId
  listed := nofun

theorem onServer_listings {e : ServerEvent} (moved : s.onServer e = .ok s') :
    s'.listings = s.listings := by
  rw [(onServer_same moved).2]

/-- Every listing is old, or was computed from the live engine. -/
theorem listings_of_step (moved : s.step settings event = .ok s') :
    ∀ listing ∈ s'.listings, listing ∈ s.listings ∨
      listing.2.2 = s.server.coordinator.engine ∧ s'.server = s.server := by
  have same : s'.listings = s.listings → ∀ listing ∈ s'.listings, listing ∈ s.listings ∨
      listing.2.2 = s.server.coordinator.engine ∧ s'.server = s.server :=
    fun same listing member => Or.inl (same ▸ member)
  cases event with
  | handshake k =>
      obtain ⟨conn, -, done⟩ := Throwing.ok_of_bind moved
      split at done
      · cases done
      · obtain rfl := Except.ok.inj done
        exact same rfl
      · split_ifs at done <;> obtain rfl := Except.ok.inj done <;> exact same rfl
      · obtain rfl := Except.ok.inj done
        intro listing member
        rcases List.mem_append.mp member with old | new
        · exact Or.inl old
        · rw [List.mem_singleton.mp new]
          exact Or.inr ⟨rfl, rfl⟩
  | hello k role =>
      obtain ⟨conn, -, done⟩ := Throwing.ok_of_bind moved
      split at done
      · cases done
      · obtain rfl := Except.ok.inj done
        exact same rfl
  | receive k j refusal nowMs =>
      obtain ⟨conn, -, moved⟩ := Throwing.ok_of_bind moved
      split at moved
      case h_2 => cases moved
      simp only at moved
      split at moved
      · obtain rfl := Except.ok.inj moved
        exact same rfl
      · obtain rfl := Except.ok.inj moved
        exact same rfl
      · split_ifs at moved
        · obtain rfl := Except.ok.inj moved
          exact same rfl
        · obtain ⟨⟨coordinator, relays⟩, -, done⟩ := Throwing.ok_of_bind moved
          obtain rfl := Except.ok.inj done
          exact same rfl
  | flushAcks k =>
      obtain ⟨conn, -, done⟩ := Throwing.ok_of_bind moved
      obtain rfl := Except.ok.inj done
      exact same rfl
  | drain k =>
      obtain ⟨conn, -, done⟩ := Throwing.ok_of_bind moved
      split at done
      · obtain rfl := Except.ok.inj done
        exact same rfl
      · cases done
  | leave k =>
      obtain ⟨conn, -, done⟩ := Throwing.ok_of_bind moved
      obtain rfl := Except.ok.inj done
      exact same rfl
  | permissionChanged k role =>
      obtain ⟨conn, -, done⟩ := Throwing.ok_of_bind moved
      obtain rfl := Except.ok.inj done
      exact same rfl
  | sweep nowMs =>
      obtain rfl := Except.ok.inj moved
      exact same rfl
  | succeed i =>
      obtain ⟨next, served, done⟩ := Throwing.ok_of_bind moved
      obtain rfl := Except.ok.inj done
      have listings : next.listings = s.listings := onServer_listings served
      exact same listings
  | restart nextReplicaId =>
      obtain ⟨next, served, done⟩ := Throwing.ok_of_bind moved
      obtain rfl := Except.ok.inj done
      have listings : next.listings = s.listings := onServer_listings served
      exact same listings
  | start | land | fail | capture | writeSnapshot =>
      exact same (onServer_listings moved)
  | connect | reopen | opened | closing | closed | disconnect | edit | discardRejected | deliver
  | gate => exact same (at_client moved rfl).2

/-- An event of the living process keeps what the engine vouches for. -/
theorem Vouched.step (vouched : s.Vouched) (rows : s.server.Rows)
    (alive : ∀ n, event ≠ .restart n) (moved : s.step settings event = .ok s') : s'.Vouched := by
  have listed : (∀ id ∈ s.server.coordinator.engine.applied,
      id ∈ s'.server.coordinator.engine.applied) → ∀ listing ∈ s'.listings,
      ∀ id ∈ listing.2.2.applied, id ∈ s'.server.coordinator.engine.applied := by
    intro lasting listing member id applied
    rcases listings_of_step moved listing member with old | ⟨now, same⟩
    · exact lasting id (vouched.listed listing old id applied)
    · exact lasting id (now ▸ applied)
  by_cases place : event.atClient = true
  · have same := (at_client moved place).1
    refine ⟨same ▸ vouched.server, listed fun id known => ?_⟩
    rw [same]
    exact known
  · obtain ⟨-, same | ⟨e, stepped, living⟩ | ⟨nowMs, rfl⟩⟩ :=
      at_server moved (Bool.eq_false_iff.mpr place)
    · refine ⟨same ▸ vouched.server, listed fun id known => ?_⟩
      rw [same]
      exact known
    · obtain ⟨server, lasting⟩ := vouched.server.step rows (fun dies => by
        obtain ⟨n, same⟩ := living dies
        exact alive n same) stepped
      exact ⟨server, listed lasting⟩
    · obtain ⟨coordinator, pending, server, queue, engine, -⟩ := sweep_server s settings nowMs
      refine ⟨⟨?_, ?_⟩, listed ?_⟩
      · rw [server]
        simp only [queue, engine]
        exact vouched.server.commits
      · rw [server]
        simp only [engine]
        exact vouched.server.stored
      · rw [server]
        simp only [engine]
        exact fun _ known => known

/-- A restart keeps it exactly when it brings everything back. -/
theorem vouched_restart_iff {n : Nat} (moved : s.step settings (.restart n) = .ok s') :
    s'.Vouched ↔ s.Recovers := by
  obtain ⟨next, served, done⟩ := Throwing.ok_of_bind moved
  obtain rfl := Except.ok.inj done
  have stepped := (onServer_same served).1
  have listings := onServer_listings served
  obtain ⟨c, started, restarted⟩ := Throwing.ok_of_bind stepped
  have server := (Except.ok.inj restarted).symm
  unfold Recovers
  rw [started]
  constructor
  · intro vouched
    have stored := vouched.server.stored
    have listed := vouched.listed
    simp only [server, listings] at stored listed
    exact ⟨stored, listed⟩
  · rintro ⟨stored, listed⟩
    refine ⟨⟨?_, ?_⟩, ?_⟩
    · simp only [server, warmStart_queue started]
      exact nofun
    · simp only [server]
      exact stored
    · simp only [server, listings]
      exact listed

end Collaboration

end ConfluenceEditor
