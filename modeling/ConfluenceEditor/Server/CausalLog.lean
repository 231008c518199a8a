/-
The order of the durable log.

A row is replayed without buffering when the insert it depends on has an earlier row. The write path
numbers the operations that a message releases in the order of the buffer, which need not be the
order in which the engine applied them (`causal_log_reversed`), and a failed commit leaves a gap that
later operations may depend on. As long as neither happens, nor a restart from a snapshot that is
ahead of the document's number, the log is in causal order at every moment (`causal_log`).
-/

import ConfluenceEditor.Server.Durability
import ConfluenceEditor.Server.Intake
import ConfluenceEditor.Server.LogRows

namespace ConfluenceEditor

open Engine Coordinator

/-! ### What a message finalizes -/

/-- Below a known insert, a chain is prepared. -/
theorem Chain.prepared {parent : Option Identifier} {known ops : List Operation}
    (chain : Chain parent ops) (met : ∀ p, parent = some p →
      ∃ ins : InsertOperation, .insert ins ∈ known ∧ ins.id = p) : Prepared known ops := by
  induction ops generalizing parent known with
  | nil => trivial
  | cons op ops ih =>
      obtain ⟨under, inserted, rest⟩ := chain
      refine ⟨fun d named => met d (under.symm.trans named), ih rest fun p same => ?_⟩
      cases op with
      | insert ins => exact ⟨ins, by simp, Option.some.inj same⟩
      | delete del => cases inserted
      | undelete und => cases inserted

/-- When an operation of a chain depends on an applied insert, so does its first operation. -/
theorem Chain.root_met {known history ops : List Operation} {parent : Option Identifier}
    (chain : Chain parent ops) (distinct : DistinctIds known) (inside : ∀ op ∈ history, op ∈ known)
    (minted : ∀ op ∈ ops, op ∈ known) (causal : Causal history) {op : Operation} (member : op ∈ ops)
    (met : DependencyMet history op) {p : Identifier} (named : parent = some p) :
    ∃ ins : InsertOperation, .insert ins ∈ history ∧ ins.id = p := by
  induction ops generalizing parent p with
  | nil => cases member
  | cons first ops ih =>
      obtain ⟨under, -, rest⟩ := chain
      rcases List.mem_cons.mp member with rfl | later
      · exact met p (under.trans named)
      · obtain ⟨ins, inHistory, same⟩ :=
          ih rest (fun x inRest => minted x (List.mem_cons_of_mem _ inRest)) later rfl
        obtain rfl := distinct _ (inside _ inHistory) first (minted first List.mem_cons_self) same
        exact causal.met inHistory p (under.trans named)

/-- Below an applied insert, a whole chain is applied. -/
theorem Chain.applied_of_root {history ops : List Operation} {parent : Option Identifier} {e : Engine}
    (chain : Chain parent ops) (built : Built e history) (settled : e.Settled)
    (complete : ∀ op ∈ ops, op ∈ e.pending ∨ op ∈ history) (met : ∀ p, parent = some p →
      ∃ ins : InsertOperation, .insert ins ∈ history ∧ ins.id = p) : ∀ op ∈ ops, op ∈ history := by
  induction ops generalizing parent with
  | nil => nofun
  | cons first ops ih =>
      obtain ⟨under, inserted, rest⟩ := chain
      have done : first ∈ history := (complete first List.mem_cons_self).resolve_left fun waiting => by
        have early := (settled first waiting).2
        rw [built.ready_iff.mpr fun d named => met d (under.symm.trans named)] at early
        cases early
      intro op member
      rcases List.mem_cons.mp member with rfl | later
      · exact done
      · refine ih rest (fun x inRest => complete x (List.mem_cons_of_mem _ inRest)) (fun p same => ?_)
          op later
        cases first with
        | insert ins => exact ⟨ins, done, Option.some.inj same⟩
        | delete del => cases inserted
        | undelete und => cases inserted

namespace Coordinator

variable {known history applied base ops own released : List Operation} {c c' : Coordinator}
  {session : Nat} {relays : List Relay} {msg : OpsMessage}

/-- The first operation that a message applies is one of its own, and its dependency was there. -/
theorem Intake.first_applied (holds : Known known c.engine history ops)
    (intake : Intake c c' history applied session ops own released relays) {op : Operation}
    (member : op ∈ applied) : ∃ first ∈ ops, DependencyMet history first ∧ first ∈ applied := by
  cases applied with
  | nil => cases member
  | cons first rest =>
      have met : DependencyMet history first := by
        have causal := intake.absorbed.built.causal
        rw [List.append_cons] at causal
        exact causal.of_append.of_snoc.2
      refine ⟨first, (List.mem_append.mp (intake.absorbed.appliedFrom first
        List.mem_cons_self)).resolve_left fun waiting => ?_, met, List.mem_cons_self⟩
      have early := (holds.settled first waiting).2
      rw [holds.built.ready_iff.mpr met] at early
      cases early

/-- The message's own operations find their dependencies when those in the engine can be found. -/
theorem Intake.prepared_own (holds : Known known c.engine history (toOperations msg))
    (intake : Intake c c' history applied session (toOperations msg) own released relays)
    (inLine : ∀ op ∈ toOperations msg, ∀ ins : InsertOperation, .insert ins ∈ history →
      op.dependency = some ins.id → .insert ins ∈ base) : Prepared base own := by
  have built := intake.absorbed.built
  have inHistory : ∀ op ∈ toOperations msg, op ∈ own ↔ op ∈ history ++ applied := fun op offered =>
    (intake.own_iff op offered).trans (holds.hasApplied_iff intake.absorbed (holds.minted op offered))
  rcases toOperations_shape msg with ⟨parent, chain⟩ | without
  · rcases List.eq_nil_or_concat own with rfl | ⟨init, last, rfl⟩
    · trivial
    -- the parent of the chain was there before the message
    have offered : last ∈ toOperations msg := intake.ownFrom.subset (by simp)
    have root : ∀ p, parent = some p → ∃ ins : InsertOperation, .insert ins ∈ history ∧ ins.id = p :=
      fun p named => by
        rcases List.mem_append.mp ((inHistory last offered).mp (by simp)) with old | new
        · exact chain.root_met holds.distinct holds.applied holds.minted holds.built.causal offered
            (holds.built.causal.met old) named
        · obtain ⟨first, inOps, met, -⟩ := intake.first_applied holds new
          exact chain.root_met holds.distinct holds.applied holds.minted holds.built.causal inOps met
            named
    have all := chain.applied_of_root built intake.settled (fun op member =>
      (intake.absorbed.complete op (List.mem_append_right _ member)).imp_right
        (holds.hasApplied_iff intake.absorbed (holds.minted op member)).mp)
      fun p named => by
        obtain ⟨ins, member, same⟩ := root p named
        exact ⟨ins, List.mem_append_left _ member, same⟩
    have whole : init.concat last = toOperations msg := intake.ownFrom.eq_of_length_le
      ((nodup_toOperations msg).subperm fun op member =>
        (inHistory op member).mpr (all op member)).length_le
    rw [whole]
    refine chain.prepared fun p named => ?_
    obtain ⟨ins, member, same⟩ := root p named
    refine ⟨ins, ?_, same⟩
    cases shape : toOperations msg with
    | nil =>
        rw [shape] at offered
        cases offered
    | cons first rest =>
        rw [shape] at chain
        exact inLine first (by rw [shape]; exact List.mem_cons_self) ins member
          (chain.1.trans (named.trans (congrArg some same.symm)))
  · have fresh := no_insert holds.built holds.settled intake.absorbed without
    refine prepared_of_met fun op mine d named => ?_
    have offered := intake.ownFrom.subset mine
    obtain ⟨ins, member, same⟩ := built.causal.met ((inHistory op offered).mp mine) d named
    refine ⟨ins, inLine op offered ins ((List.mem_append.mp member).resolve_right fun new => ?_)
      (named.trans (congrArg some same.symm)), same⟩
    cases fresh _ new

/-- So do the released operations when none waits in front of the insert it names. -/
theorem Intake.prepared_released (holds : Known known c.engine history ops)
    (intake : Intake c c' history applied session ops own released relays)
    (ordered : c.engine.pending.Pairwise fun op later => ∀ ins : InsertOperation,
      later = .insert ins → Supplied c.engine ops ins.id → op.dependency ≠ some ins.id) :
    Prepared (base ++ own) released := by
  refine prepared_of_pairwise (fun op freed d named => ?_)
    ((ordered.sublist intake.releasedFrom).imp_of_mem fun {op later} _ freed apart ins same => ?_)
  · obtain ⟨before, after, split⟩ := List.append_of_mem (intake.released_applied holds op freed)
    have built := intake.absorbed.built
    -- the insert was applied before the operation
    have met : DependencyMet (history ++ before) op := by
      have causal := built.causal
      rw [split, ← List.append_assoc, List.append_cons] at causal
      exact causal.of_append.of_snoc.2
    obtain ⟨ins, member, same⟩ := met d named
    have new : .insert ins ∈ applied := by
      rcases List.mem_append.mp member with old | new
      · have early := (holds.settled op (intake.releasedFrom.subset freed)).2
        rw [holds.built.ready_iff.mpr fun d' named' => by
          obtain rfl := Option.some.inj (named.symm.trans named')
          exact ⟨ins, old, same⟩] at early
        cases early
      · rw [split]
        exact List.mem_append_left _ new
    refine ⟨ins, ?_, same, fun self => ?_⟩
    · rw [List.append_assoc]
      exact List.mem_append_right _ (intake.finalized _ new)
    · have unique := built.nodup.of_map
      rw [split, ← List.append_assoc, self.symm, List.nodup_append] at unique
      exact unique.2.2 _ member _ List.mem_cons_self rfl
  · subst same
    exact apart ins rfl (supplied_of_applied holds.built intake.absorbed
      (intake.released_applied holds _ freed))

end Coordinator

/-- A causal list of new operations is applied as it comes. -/
theorem applyMessage_prepared {e : Engine} {history ops : List Operation} (built : Built e history)
    (empty : e.pending = []) (nodup : ((history ++ ops).map Operation.id).Nodup)
    (prepared : Prepared history ops) : ∃ e', applyMessage e ops =
      .ok (ops.map fun op => (op, false), e') ∧ Built e' (history ++ ops) ∧ e'.pending = [] := by
  induction ops generalizing e history with
  | nil => exact ⟨e, rfl, by rwa [List.append_nil], empty⟩
  | cons op ops ih =>
      obtain ⟨met, rest⟩ := prepared
      have fresh : e.hasApplied op.id = false := by
        rw [Bool.eq_false_iff]
        intro known
        obtain ⟨old, member, same⟩ := built.hasApplied_iff.mp known
        rw [List.map_append, List.nodup_append] at nodup
        exact nodup.2.2 _ (List.mem_map_of_mem member) op.id (by simp) same
      obtain ⟨e₁, delivered, extended⟩ :=
        built.applyRemote_ready empty fresh (built.ready_iff.mpr met) none
      obtain ⟨e', later, built', empty'⟩ := ih extended.built
        (extended.buffers.pending.trans empty) (by rwa [← List.append_cons]) rest
      refine ⟨e', by simp [applyMessage, delivered, later, bind, Except.bind], ?_, empty'⟩
      rwa [List.append_cons]

/-! ### The line of operations that are, or will be, durable -/

/-- The operations of the commits that may still land, in their order. -/
def waitingOps (commits : List Commit) : List Operation :=
  (commits.filter fun c => c.phase.waiting).flatMap Commit.ops

theorem waitingOps_append (first second : List Commit) :
    waitingOps (first ++ second) = waitingOps first ++ waitingOps second := by
  rw [waitingOps, List.filter_append, List.flatMap_append]
  rfl

theorem waitingOps_cons (c : Commit) (commits : List Commit) : waitingOps (c :: commits) =
    (if c.phase.waiting then c.ops else []) ++ waitingOps commits := by
  rw [waitingOps, List.filter_cons]
  split_ifs <;> rfl

theorem waitingOps_enqueueAll (q : CommitQueue) (batches : List (Nat × List Operation)) :
    waitingOps (q.enqueueAll batches).commits =
      waitingOps q.commits ++ batches.flatMap Prod.snd := by
  induction batches generalizing q with
  | nil => exact (List.append_nil _).symm
  | cons batch batches ih =>
      refine (ih (q.enqueueCommit batch.1 batch.2)).trans ?_
      simp [CommitQueue.enqueueCommit, waitingOps, CommitPhase.waiting]

namespace Server

/-- The logged operations and those whose commits may still land. -/
def line (s : Server) : List Operation := s.store.logged ++ waitingOps s.coordinator.queue.commits

/-- Every row finds its dependency under a smaller number, a replay of the rows into a fresh engine
buffers nothing, and a warm start succeeds. -/
structure CausalLog (s : Server) : Prop where
  smaller : ∀ row ∈ s.store.operations, ∀ d, row.op.dependency = some d →
    ∃ earlier ∈ s.store.operations, earlier.seq < row.seq ∧ earlier.op.insertedId = some d
  replay : ∃ e, applyMessage (Engine.new serverReplicaId) s.store.logged =
    .ok (s.store.logged.map fun op => (op, false), e) ∧ e.pending = []
  warm : ∃ c, warmStart s.store = .ok c

/-- Every insert of the engine that an operation depends on is durable or in the queue. -/
def InLine (s : Server) (ops : List Operation) : Prop :=
  ∀ op ∈ ops, ∀ ins ∈ insertsIn s.coordinator.engine.nodes, op.dependency = some ins.id →
    .insert ins ∈ s.line

instance (s : Server) (ops : List Operation) : Decidable (s.InLine ops) :=
  inferInstanceAs (Decidable (∀ op ∈ ops, ∀ ins ∈ insertsIn _, _ → _))

/-- A message depends on no insert of the engine that is neither durable nor in the queue, and of
the waiting operations that it releases none stands in front of the insert it depends on; when a
commit fails, no commit behind it depends on it; no restart while the newest snapshot is ahead of
the document's number. -/
def KeepsOrder (s : Server) : ServerEvent → Prop
  | .receive _ ops _ =>
      s.InLine ops ∧ s.coordinator.engine.pending.Pairwise fun op later =>
        ∀ ins : InsertOperation, later = .insert ins → Supplied s.coordinator.engine ops ins.id →
          op.dependency ≠ some ins.id
  | .fail i => Prepared s.store.logged (waitingOps (s.coordinator.queue.commits.eraseIdx i))
  | .restart => s.store.snapshotSeq ≤ s.store.currentSeq
  | _ => True

/-- The line is in causal order, besides what every sound server keeps. -/
structure Causally (known : List Operation) (s : Server) : Prop where
  base : s.Invariant known
  settled : s.coordinator.engine.Settled
  covered : Covered s.coordinator
  prepared : Prepared [] s.line

theorem causally_init (documentId : String) {known : List Operation}
    (distinct : DistinctIds known) : Causally known (init documentId) :=
  ⟨invariant_init documentId distinct, nofun, nofun, trivial⟩

namespace Causally

variable {known : List Operation} {s s' : Server}

/-- An event that leaves the engine alone. -/
theorem congr (causally : s.Causally known) (base : s'.Invariant known)
    (engine : s'.coordinator.engine = s.coordinator.engine)
    (origins : s'.coordinator.pendingOpOrigin = s.coordinator.pendingOpOrigin)
    (prepared : Prepared [] s'.line) : s'.Causally known where
  base := base
  settled := engine ▸ causally.settled
  covered := by
    rw [Covered, engine, origins]
    exact causally.covered
  prepared := prepared

theorem engineKnown (causally : s.Causally known) {ops : List Operation}
    (minted : ∀ op ∈ ops, op ∈ known) :
    ∃ history, Known known s.coordinator.engine history ops := by
  obtain ⟨history, full, current⟩ := causally.base.current
  exact ⟨history, current.built, causally.settled, causally.base.distinct, fun op member =>
    causally.base.known op (current.received op (current.explains.subset op member)),
    fun op member => causally.base.known op (current.waiting op member), minted⟩

theorem receive (causally : s.Causally known) {session nowMs : Nat} {msg : OpsMessage}
    (minted : ∀ op ∈ toOperations msg, op ∈ known)
    (keeps : s.KeepsOrder (.receive session (toOperations msg) nowMs))
    (moved : step s (.receive session (toOperations msg) nowMs) = .ok s') : s'.Causally known := by
  have base := causally.base.receive minted moved
  obtain ⟨history, holds⟩ := causally.engineKnown minted
  obtain ⟨c, relays, applied, own, released, ran, intake⟩ :=
    processIncomingOperation_intake session nowMs holds causally.covered
  obtain ⟨inLine, ordered⟩ := keeps
  simp only [step, ran] at moved
  obtain rfl := Except.ok.inj moved
  refine ⟨base, intake.settled, intake.covered, ?_⟩
  have grown : waitingOps c.queue.commits =
      waitingOps s.coordinator.queue.commits ++ (own ++ released) := by
    rw [intake.queue, waitingOps_enqueueAll, List.flatMap_map, ← intake.relayed]
  have own_prepared : Prepared s.line own := intake.prepared_own holds fun op member ins inside named => by
    refine inLine op member ins ?_ named
    rwa [insertsIn, holds.built.nodes_eq, holds.built.inserts]
  rw [line, grown, ← List.append_assoc]
  exact prepared_append.mpr ⟨causally.prepared, prepared_append.mpr
    ⟨own_prepared, intake.prepared_released holds ordered⟩⟩

/-- The commit that lands is the first one that may still land. -/
theorem waiting_land (causally : s.Causally known) {i : Nat} {c : Commit}
    (entry : s.coordinator.queue.commits[i]? = some c) (running : c.phase = .running) :
    ∃ rest, waitingOps s.coordinator.queue.commits = c.ops ++ rest ∧
      waitingOps (s.coordinator.queue.setPhase i .landed).commits = rest := by
  obtain ⟨base, inv⟩ := causally.base.queue
  obtain ⟨before, after, split, rfl, modified, -⟩ :=
    exists_around entry fun c => { c with phase := .landed }
  have done : waitingOps before = [] := by
    rw [waitingOps, List.filter_eq_nil_iff.mpr fun d member => ?_, List.flatMap_nil]
    obtain ⟨j, at?⟩ := List.getElem?_of_mem member
    have less := (List.getElem?_eq_some_iff.mp at?).1
    have settled := (inv.inOrder j before.length d c less (by
      simp only
      rw [split, List.getElem?_append_left less, at?]) entry).2 (by rw [running]; nofun)
    cases phase : d.phase <;> simp_all [CommitPhase.waiting, CommitPhase.settled]
  refine ⟨waitingOps after, ?_, ?_⟩
  · rw [split, waitingOps_append, waitingOps_cons, done, running]
    rfl
  · rw [CommitQueue.setPhase, modified, waitingOps_append, waitingOps_cons, done]
    rfl

theorem land (causally : s.Causally known) {i now : Nat}
    (moved : step s (.land i now) = .ok s') : s'.Causally known := by
  obtain ⟨⟨store, queue⟩, landed, done⟩ := Throwing.ok_of_bind moved
  obtain ⟨c, entry, running, rfl, rfl⟩ := CommitQueue.land_cases landed
  obtain ⟨rest, before, after⟩ := causally.waiting_land entry running
  have prepared := causally.prepared
  rw [line, before, ← List.append_assoc, prepared_append, prepared_append, List.nil_append] at prepared
  obtain ⟨⟨logged, next⟩, others⟩ := prepared
  have sound : s.Sound (.land i now) := by
    rw [Sound, opsOf, entry]
    exact next.mono fun ins member => List.mem_append_right _ member
  have base := causally.base.land sound moved
  obtain rfl := Except.ok.inj done
  refine causally.congr base rfl rfl ?_
  obtain ⟨start, inv⟩ := causally.base.queue
  have inCommits := List.mem_of_getElem? entry
  have nonempty := inv.nonempty c inCommits
  have below := inv.below entry running
  obtain ⟨history, full, current⟩ := causally.base.current
  have loggedKnown : ∀ op ∈ s.store.logged, op ∈ known := fun op member =>
    causally.base.known op (current.received op (current.logged op member))
  have opsKnown : ∀ op ∈ c.ops, op ∈ known := fun op member => by
    obtain ⟨k, named⟩ := List.getElem?_of_mem member
    exact causally.base.known op (current.received op
      (current.finalized _ op ⟨c, inCommits, k, named, rfl⟩))
  obtain ⟨new, spec, -⟩ := s.store.commitOperations_spec c.startSeq now c.ops nonempty below
  have stored : ∀ op ∈ s.store.logged ++ c.ops,
      op ∈ (s.store.commitOperations c.startSeq c.ops now).2.logged := fun op member => by
    rcases List.mem_append.mp member with old | mine
    · rw [Store.logged, spec.operations, List.map_append]
      exact List.mem_append_left _ old
    · obtain ⟨row, inside, same⟩ := spec.durable op mine
      have rowKnown : row.op ∈ known := by
        rw [spec.operations] at inside
        rcases List.mem_append.mp inside with old | added
        · exact loggedKnown _ (List.mem_map_of_mem old)
        · obtain ⟨k, named, -⟩ := spec.place row added
          exact opsKnown _ (List.mem_of_getElem? named)
      rw [← causally.base.distinct row.op rowKnown op (opsKnown op mine) same]
      exact List.mem_map_of_mem inside
  have ordered : Prepared [] (s.store.commitOperations c.startSeq c.ops now).2.logged := by
    rw [Store.commitOperations, if_neg nonempty]
    exact Invariant.prepared_insertAll now causally.base.distinct c.ops s.store c.startSeq below
      loggedKnown opsKnown logged (by rwa [List.nil_append])
  simp only [line, Server.setQueue, after]
  refine prepared_append.mpr ⟨ordered, ?_⟩
  rw [List.nil_append]
  exact others.mono fun ins member => stored _ member

/-- A commit that fails, or has succeeded, is not waited for. -/
theorem waiting_settled {i : Nat} {c : Commit} (phase : CommitPhase)
    (entry : s.coordinator.queue.commits[i]? = some c) (settled : phase.waiting = false) :
    waitingOps (s.coordinator.queue.setPhase i phase).commits =
      waitingOps (s.coordinator.queue.commits.eraseIdx i) := by
  obtain ⟨before, after, -, -, modified, erased⟩ :=
    exists_around entry fun c => { c with phase }
  rw [CommitQueue.setPhase, modified, erased, waitingOps_append, waitingOps_append, waitingOps_cons,
    settled]
  rfl

/-- A commit in another phase of the same kind. -/
theorem waiting_same {i : Nat} {c : Commit} (phase : CommitPhase)
    (entry : s.coordinator.queue.commits[i]? = some c) (same : phase.waiting = c.phase.waiting) :
    waitingOps (s.coordinator.queue.setPhase i phase).commits =
      waitingOps s.coordinator.queue.commits := by
  obtain ⟨before, after, split, -, modified, -⟩ := exists_around entry fun c => { c with phase }
  rw [CommitQueue.setPhase, modified, split, waitingOps_append, waitingOps_append, waitingOps_cons,
    waitingOps_cons, same]

theorem start (causally : s.Causally known) {i : Nat} (moved : step s (.start i) = .ok s') :
    s'.Causally known := by
  have base := causally.base.start moved
  obtain ⟨queue, started, done⟩ := Throwing.ok_of_bind moved
  obtain rfl := Except.ok.inj done
  refine causally.congr base rfl rfl ?_
  unfold CommitQueue.start at started
  split at started
  · rename_i c entry
    split_ifs at started with next
    obtain rfl := Except.ok.inj started
    simp only [line, Server.setQueue, waiting_same .running entry (by rw [next.1]; rfl)]
    exact causally.prepared
  · cases started

theorem succeed (causally : s.Causally known) {i : Nat} (moved : step s (.succeed i) = .ok s') :
    s'.Causally known := by
  have base := causally.base.succeed moved
  obtain ⟨queue, fulfilled, done⟩ := Throwing.ok_of_bind moved
  obtain rfl := Except.ok.inj done
  refine causally.congr base rfl rfl ?_
  unfold CommitQueue.succeed at fulfilled
  split at fulfilled
  · rename_i c entry
    split_ifs at fulfilled with landed
    obtain rfl := Except.ok.inj fulfilled
    simp only [line, Server.setQueue, waiting_same .succeeded entry (by rw [landed]; rfl)]
    exact causally.prepared
  · cases fulfilled

theorem fail (causally : s.Causally known) {i : Nat} (keeps : s.KeepsOrder (.fail i))
    (moved : step s (.fail i) = .ok s') : s'.Causally known := by
  have base := causally.base.fail moved
  obtain ⟨queue, failed, done⟩ := Throwing.ok_of_bind moved
  obtain rfl := Except.ok.inj done
  refine causally.congr base rfl rfl ?_
  unfold CommitQueue.fail at failed
  split at failed
  · rename_i c entry
    split_ifs at failed
    obtain rfl := Except.ok.inj failed
    simp only [line, Server.setQueue, waiting_settled .failed entry rfl]
    have logged := causally.prepared
    rw [line, prepared_append] at logged
    exact prepared_append.mpr ⟨logged.1, keeps⟩
  · cases failed

theorem capture (causally : s.Causally known) (moved : step s .capture = .ok s') :
    s'.Causally known := by
  have base := causally.base.capture moved
  obtain ⟨content, -, rfl⟩ := capture_ok moved
  exact causally.congr base rfl rfl causally.prepared

theorem writeSnapshot (causally : s.Causally known) {k : Nat}
    (moved : step s (.writeSnapshot k) = .ok s') : s'.Causally known := by
  have base := causally.base.writeSnapshot moved
  obtain ⟨store, capturing, rfl, written⟩ := writeSnapshot_ok moved
  refine causally.congr base rfl rfl ?_
  rw [line, Store.logged, written.operations]
  exact causally.prepared

theorem restart (causally : s.Causally known) (keeps : s.KeepsOrder .restart)
    (moved : step s .restart = .ok s') : s'.Causally known := by
  have base := causally.base.restart keeps moved
  obtain ⟨c, history, full, started, -, recovered⟩ := warmStart_spec causally.base.recoverable
  simp only [Server.step, started] at moved
  obtain rfl := Except.ok.inj moved
  have nothing : ∀ op, op ∉ c.engine.pending := fun op member => by
    rw [recovered.empty] at member
    cases member
  have prepared := causally.prepared
  rw [line, prepared_append] at prepared
  refine ⟨base, fun op member => absurd member (nothing op), fun op member =>
    absurd member (nothing op), ?_⟩
  rw [line, recovered.queue]
  exact prepared_append.mpr ⟨prepared.1, trivial⟩

theorem step (causally : s.Causally known) {event : ServerEvent}
    (decoded : ∀ session ops nowMs, event = .receive session ops nowMs →
      ∃ msg, ops = toOperations msg)
    (minted : ∀ op ∈ offered event, op ∈ known) (keeps : s.KeepsOrder event)
    (moved : Server.step s event = .ok s') : s'.Causally known := by
  cases event with
  | receive session ops now =>
      obtain ⟨msg, rfl⟩ := decoded session ops now rfl
      exact causally.receive minted keeps moved
  | start i => exact causally.start moved
  | land i now => exact causally.land moved
  | succeed i => exact causally.succeed moved
  | fail i => exact causally.fail keeps moved
  | capture => exact causally.capture moved
  | writeSnapshot k => exact causally.writeSnapshot moved
  | restart => exact causally.restart keeps moved

/-- What the order of the line means for the log. -/
theorem causalLog (causally : s.Causally known) : s.CausalLog := by
  have prepared := causally.prepared
  rw [line, prepared_append] at prepared
  obtain ⟨logged, -⟩ := prepared
  refine ⟨fun row member d named => ?_, ?_, ?_⟩
  · obtain ⟨before, after, split⟩ := List.append_of_mem member
    have ascending := causally.base.wf.ascending
    rw [split, List.pairwise_append] at ascending
    rw [Store.logged, split, List.map_append, List.map_cons] at logged
    obtain ⟨ins, inside, rfl⟩ := logged.met d named
    obtain ⟨earlier, inBefore, same⟩ := List.mem_map.mp inside
    refine ⟨earlier, by rw [split]; exact List.mem_append_left _ inBefore,
      ascending.2.2 earlier inBefore row List.mem_cons_self, ?_⟩
    rw [same]
    rfl
  · obtain ⟨e, ran, -, empty⟩ := applyMessage_prepared (built_new serverReplicaId) rfl
      (by simpa using causally.base.wf.nodup_logged) logged
    exact ⟨e, ran, empty⟩
  · obtain ⟨c, -, started, -⟩ := causally.base.survives
    exact ⟨c, started⟩

end Causally

/-- Three characters, each to the right of the one before. -/
def firstOfThree : InsertOperation := ⟨⟨1, 1⟩, 97, none, .R, false⟩

def secondOfThree : InsertOperation := ⟨⟨2, 1⟩, 98, some ⟨1, 1⟩, .R, false⟩

def thirdOfThree : InsertOperation := ⟨⟨3, 1⟩, 99, some ⟨2, 1⟩, .R, false⟩

/-- The second character arrives before the first one, and its commit fails. -/
def swapped : List ServerEvent :=
  [.receive 1 (toOperations (.opInsert secondOfThree)) 0,
    .receive 1 (toOperations (.opInsert firstOfThree)) 0,
    .start 0, .land 0 0, .succeed 0, .start 1, .fail 1, .restart,
    .receive 1 (toOperations (.opInsert secondOfThree)) 0, .start 0, .land 0 0]

/-- All three arrive in the reverse order. -/
def reversed : List ServerEvent :=
  [.receive 1 (toOperations (.opInsert thirdOfThree)) 0,
    .receive 1 (toOperations (.opInsert secondOfThree)) 0,
    .receive 1 (toOperations (.opInsert firstOfThree)) 0,
    .start 0, .land 0 0, .succeed 0, .start 1, .land 1 0, .succeed 1, .start 2, .land 2 0]

/-- The commit of the first character fails, that of the second one does not. -/
def orphaned : List ServerEvent :=
  [.receive 1 (toOperations (.opInsert firstOfThree)) 0, .start 0, .fail 0,
    .receive 1 (toOperations (.opInsert secondOfThree)) 0, .start 1, .land 1 0]

/-- A row whose dependency was lost keeps the document from starting. -/
example : Run.ends (Run.run step (init "document") orphaned) (fun s =>
    match warmStart s.store with
    | .ok _ => false
    | .error _ => true) = true := by decide

end Server

end ConfluenceEditor
