/-
The sweep of the offline window.

An operation that has waited too long is evicted from the engine's buffer, and so are the oldest ones
when the buffer is too large; their sessions are told. An eviction removes one copy of an operation
from the buffer, and its origin altogether: as long as no operation of which several copies wait is
evicted, the origin of everything that still waits stays known (`runOneDocument_spec`).
-/

import ConfluenceEditor.Protocol.Messages
import ConfluenceEditor.Server.Intake

namespace ConfluenceEditor

structure OfflineWindowConfig where
  pendingRejectTimeoutMs : Nat
  maxPendingPerDocument : Option Nat
  deriving DecidableEq, Repr

def DEFAULT_MAX_PENDING_PER_DOCUMENT : Nat := 5000

/-- A frame that tells a session which of its operations were refused. -/
structure OpReject where
  session : Nat
  rejectedIds : List Identifier
  reason : RejectReason
  detail : String
  deriving DecidableEq, Repr

/-- A coordinator with the times at which the sweep first saw the waiting operations. -/
structure SweepState where
  coordinator : Coordinator
  pendingFirstSeenAtMs : Identifier → Option Nat

namespace SweepState

def pending (s : SweepState) : List Operation := s.coordinator.engine.pending

def evict (s : SweepState) (op : Operation) : SweepState where
  coordinator := { s.coordinator with
    engine := (s.coordinator.engine.rejectPending op.id).2
    pendingOpOrigin := Function.update s.coordinator.pendingOpOrigin op.id none }
  pendingFirstSeenAtMs := Function.update s.pendingFirstSeenAtMs op.id none

/-- The pass over a copy of the buffer; the operations that have waited too long are evicted. -/
def agePass (nowMs pendingRejectTimeoutMs : Nat) (s : SweepState) :
    List Operation → SweepState × List Operation
  | [] => (s, [])
  | op :: ops =>
      match s.pendingFirstSeenAtMs op.id with
      | none => agePass nowMs pendingRejectTimeoutMs { s with
          pendingFirstSeenAtMs := Function.update s.pendingFirstSeenAtMs op.id (some nowMs) } ops
      | some firstSeen =>
          if nowMs < firstSeen + pendingRejectTimeoutMs then
            agePass nowMs pendingRejectTimeoutMs s ops
          else
            let (s, evicted) := agePass nowMs pendingRejectTimeoutMs (s.evict op) ops
            (s, op :: evicted)

/-- Forget everything about operations that were not waiting. -/
def prune (s : SweepState) (stillPending : List Operation) : SweepState where
  coordinator := { s.coordinator with
    pendingOpOrigin := fun id =>
      if stillPending.any fun op => op.id = id then s.coordinator.pendingOpOrigin id else none }
  pendingFirstSeenAtMs := fun id =>
    if stillPending.any fun op => op.id = id then s.pendingFirstSeenAtMs id else none

def maxPending (config : OfflineWindowConfig) : Nat :=
  config.maxPendingPerDocument.getD DEFAULT_MAX_PENDING_PER_DOCUMENT

/-- The oldest of the waiting operations, as many as there are too many. -/
def oldestFirst (s : SweepState) (nowMs maxPendingPerDocument : Nat) : List Operation :=
  (s.pending.insertionSort fun a b => (s.pendingFirstSeenAtMs a.id).getD nowMs ≤
    (s.pendingFirstSeenAtMs b.id).getD nowMs).take (s.pending.length - maxPendingPerDocument)

/-! ### The rejections -/

/-- The first session that edits under a replica id; a session is listed with its replica id. -/
def getSessionByReplicaId (sessions : List (Nat × Nat)) (replicaId : Nat) : Option Nat :=
  (sessions.find? fun session => session.2 = replicaId).map Prod.fst

/-- Add an operation to the bucket of its session. -/
def addToBucket (buckets : List (Nat × List Operation)) (session : Nat) (op : Operation) :
    List (Nat × List Operation) :=
  if buckets.any fun bucket => bucket.1 = session then
    buckets.map fun bucket => if bucket.1 = session then (session, bucket.2 ++ [op]) else bucket
  else buckets ++ [(session, [op])]

/-- One frame for each session that has operations among those that waited too long. -/
def ageRejects (sessions : List (Nat × Nat)) (pendingRejectTimeoutMs : Nat)
    (evicted : List Operation) : List OpReject :=
  (evicted.foldl (fun buckets op =>
    match getSessionByReplicaId sessions op.id.r with
    | some session => addToBucket buckets session op
    | none => buckets) []).map fun (session, ops) =>
      ⟨session, ops.map Operation.id, .OFFLINE_WINDOW_EXCEEDED,
        toString ops.length ++ " operation(s) buffered longer than " ++
          toString pendingRejectTimeoutMs ++ "ms with an unresolvable origin (Engine Spec §7.6)"⟩

/-- One frame for each operation that there was no room for. -/
def overflowRejects (sessions : List (Nat × Nat)) (maxPendingPerDocument : Nat)
    (evicted : List Operation) : List OpReject :=
  evicted.filterMap fun op => (getSessionByReplicaId sessions op.id.r).map fun session =>
    ⟨session, [op.id], .RATE_LIMITED, "document's causal buffer capacity (" ++
      toString maxPendingPerDocument ++ ") exceeded (RFC §8.7)"⟩

/-- One sweep: the state afterwards, what was evicted and what the sessions are told. -/
def runOneDocument (s : SweepState) (sessions : List (Nat × Nat)) (config : OfflineWindowConfig)
    (nowMs : Nat) : SweepState × List Operation × List OpReject :=
  let stillPending := s.pending
  let (aged, expired) := agePass nowMs config.pendingRejectTimeoutMs s stillPending
  let pruned := aged.prune stillPending
  let overflowed := pruned.oldestFirst nowMs (maxPending config)
  (overflowed.foldl evict pruned, expired ++ overflowed,
    ageRejects sessions config.pendingRejectTimeoutMs expired ++
      overflowRejects sessions (maxPending config) overflowed)

/-! ### What a sweep does to the buffer -/

/-- How many copies of an operation wait. -/
def copies (s : SweepState) (id : Identifier) : Nat := (s.pending.map Operation.id).count id

/-- Evictions take operations out of the buffer and forget their origins, nothing else. -/
structure Evicted (s s' : SweepState) (evicted : List Operation) : Prop where
  engine : ∃ pending, s'.coordinator.engine = { s.coordinator.engine with pending } ∧
    pending.Sublist s.pending
  queue : s'.coordinator.queue = s.coordinator.queue
  copies : ∀ id, s'.copies id + (evicted.map Operation.id).count id = s.copies id
  origins : ∀ id ∉ evicted.map Operation.id, s'.coordinator.pendingOpOrigin id =
    s.coordinator.pendingOpOrigin id
  known : ∀ id session, s'.coordinator.pendingOpOrigin id = some session →
    s.coordinator.pendingOpOrigin id = some session

namespace Evicted

variable {s s' s'' : SweepState} {evicted evicted' : List Operation}

theorem refl (s : SweepState) : Evicted s s [] :=
  ⟨⟨s.pending, rfl, .refl _⟩, rfl, fun _ => rfl, fun _ _ => rfl, fun _ _ named => named⟩

theorem trans (first : Evicted s s' evicted) (second : Evicted s' s'' evicted') :
    Evicted s s'' (evicted ++ evicted') where
  engine := by
    obtain ⟨pending, engine, sub⟩ := first.engine
    obtain ⟨pending', engine', sub'⟩ := second.engine
    refine ⟨pending', by rw [engine', engine], sub'.trans ?_⟩
    rwa [SweepState.pending, engine]
  queue := second.queue.trans first.queue
  copies id := by
    rw [List.map_append, List.count_append, ← first.copies id, ← second.copies id]
    omega
  origins id kept := by
    rw [List.map_append, List.mem_append, not_or] at kept
    exact (second.origins id kept.2).trans (first.origins id kept.1)
  known id session named := first.known id session (second.known id session named)

end Evicted

/-- Rejecting removes the first copy, if there is one. -/
theorem rejectPending_pending (e : Engine) (id : Identifier) :
    ∃ pending, (e.rejectPending id).2 = { e with pending } ∧ pending.Sublist e.pending ∧
      pending.map Operation.id = (e.pending.map Operation.id).erase id := by
  have erased : ∀ ops : List Operation, (ops.eraseP fun op => op.id = id).map Operation.id =
      (ops.map Operation.id).erase id := by
    intro ops
    induction ops with
    | nil => rfl
    | cons op ops ih =>
        by_cases here : op.id = id
        · rw [List.eraseP_cons_of_pos (by simpa using here), List.map_cons, here,
            List.erase_cons_head]
        · rw [List.eraseP_cons_of_neg (by simpa using here), List.map_cons, List.map_cons, ih,
            List.erase_cons_tail (by simpa using here)]
  rw [Engine.rejectPending]
  split_ifs with present
  · exact ⟨_, rfl, List.eraseP_sublist, erased e.pending⟩
  · refine ⟨e.pending, rfl, .refl _, (List.erase_of_not_mem fun member => present ?_).symm⟩
    obtain ⟨op, inside, same⟩ := List.mem_map.mp member
    exact List.any_eq_true.mpr ⟨op, inside, decide_eq_true same⟩

/-- One eviction of an operation that waits. -/
theorem evicted_evict (s : SweepState) (op : Operation) (waiting : 0 < s.copies op.id) :
    Evicted s (s.evict op) [op] where
  engine := by
    obtain ⟨pending, same, sub, -⟩ := rejectPending_pending s.coordinator.engine op.id
    exact ⟨pending, same, sub⟩
  queue := rfl
  copies id := by
    obtain ⟨pending, same, -, ids⟩ := rejectPending_pending s.coordinator.engine op.id
    have after : (s.evict op).pending.map Operation.id =
        (s.pending.map Operation.id).erase op.id := by
      simp only [SweepState.pending, evict, same]
      exact ids
    rw [SweepState.copies, after, List.count_erase, List.map_singleton, List.count_singleton]
    rw [SweepState.copies] at waiting ⊢
    by_cases here : op.id = id
    · subst here
      simp only [beq_self_eq_true, if_true]
      omega
    · simp [here]
  origins id kept := by
    have other : id ≠ op.id := by simpa using kept
    exact Function.update_of_ne other ..
  known id session named := by
    simp only [evict, Function.update_apply] at named
    split_ifs at named
    exact named

/-- The age pass evicts operations of the copy of the buffer that it goes through. -/
theorem evicted_agePass (nowMs pendingRejectTimeoutMs : Nat) (s : SweepState)
    (ops : List Operation) (waiting : ∀ id, (ops.map Operation.id).count id ≤ s.copies id) :
    Evicted s (s.agePass nowMs pendingRejectTimeoutMs ops).1
        (s.agePass nowMs pendingRejectTimeoutMs ops).2 ∧
      (s.agePass nowMs pendingRejectTimeoutMs ops).2.Sublist ops := by
  induction ops generalizing s with
  | nil => exact ⟨.refl s, .refl _⟩
  | cons op ops ih =>
      have fewer : ∀ id, (ops.map Operation.id).count id ≤ s.copies id := fun id =>
        le_trans (List.Sublist.count_le id (List.sublist_cons_self ..)) (waiting id)
      rw [agePass]
      split
      · obtain ⟨evicted, sub⟩ := ih { s with
          pendingFirstSeenAtMs := Function.update s.pendingFirstSeenAtMs op.id (some nowMs) } fewer
        exact ⟨⟨evicted.engine, evicted.queue, evicted.copies, evicted.origins, evicted.known⟩,
          sub.cons _⟩
      · split_ifs
        · obtain ⟨evicted, sub⟩ := ih s fewer
          exact ⟨evicted, sub.cons _⟩
        · have here := waiting op.id
          rw [List.map_cons, List.count_cons_self] at here
          have first := evicted_evict s op (by omega)
          obtain ⟨evicted, sub⟩ := ih (s.evict op) fun id => by
            have before := waiting id
            have after := first.copies id
            rw [List.map_cons, List.count_cons] at before
            rw [List.map_singleton, List.count_singleton] at after
            omega
          exact ⟨first.trans evicted, sub.cons_cons _⟩

theorem evicted_foldl (s : SweepState) (ops : List Operation)
    (waiting : ∀ id, (ops.map Operation.id).count id ≤ s.copies id) :
    Evicted s (ops.foldl evict s) ops := by
  induction ops generalizing s with
  | nil => exact .refl s
  | cons op ops ih =>
      have here := waiting op.id
      rw [List.map_cons, List.count_cons_self] at here
      have first := evicted_evict s op (by omega)
      refine first.trans (ih (s.evict op) fun id => ?_)
      have before := waiting id
      have after := first.copies id
      rw [List.map_cons, List.count_cons] at before
      rw [List.map_singleton, List.count_singleton] at after
      omega

/-- The operations of which there are too many are waiting ones. -/
theorem count_oldestFirst (s : SweepState) (nowMs maxPendingPerDocument : Nat) (id : Identifier) :
    ((s.oldestFirst nowMs maxPendingPerDocument).map Operation.id).count id ≤ s.copies id := by
  rw [oldestFirst]
  refine le_trans (((List.take_sublist ..).map Operation.id).count_le id) (le_of_eq ?_)
  exact ((List.perm_insertionSort _ s.pending).map Operation.id).count_eq id

/-- A sweep takes operations out of the buffer; the origins of those that wait and of which no copy
was evicted stay. -/
theorem runOneDocument_spec (s : SweepState) (sessions : List (Nat × Nat))
    (config : OfflineWindowConfig) (nowMs : Nat) :
    ∃ s' evicted, (s.runOneDocument sessions config nowMs).1 = s' ∧
      (s.runOneDocument sessions config nowMs).2.1 = evicted ∧
      (∃ pending, s'.coordinator.engine = { s.coordinator.engine with pending } ∧
        pending.Sublist s.pending) ∧
      s'.coordinator.queue = s.coordinator.queue ∧
      (∀ id, s'.copies id + (evicted.map Operation.id).count id = s.copies id) ∧
      (∀ id session, s'.coordinator.pendingOpOrigin id = some session →
        s.coordinator.pendingOpOrigin id = some session) ∧
      ∀ op ∈ s'.pending, op.id ∉ evicted.map Operation.id →
        s'.coordinator.pendingOpOrigin op.id = s.coordinator.pendingOpOrigin op.id := by
  obtain ⟨aged, -⟩ := evicted_agePass nowMs config.pendingRejectTimeoutMs s s.pending fun id =>
    le_refl _
  set state := (s.agePass nowMs config.pendingRejectTimeoutMs s.pending).1
  set expired := (s.agePass nowMs config.pendingRejectTimeoutMs s.pending).2
  set pruned := state.prune s.pending with hpruned
  set overflowed := pruned.oldestFirst nowMs (maxPending config)
  have rest := evicted_foldl pruned overflowed (count_oldestFirst pruned nowMs _)
  refine ⟨overflowed.foldl evict pruned, expired ++ overflowed, rfl, rfl, ?_, ?_, fun id => ?_,
    fun id session named => ?_, fun op waiting kept => ?_⟩
  · obtain ⟨pending, engine, sub⟩ := aged.engine
    obtain ⟨pending', engine', sub'⟩ := rest.engine
    have same : pruned.coordinator.engine = state.coordinator.engine := rfl
    refine ⟨pending', by rw [engine', same, engine], sub'.trans ?_⟩
    rwa [SweepState.pending, same, engine]
  · exact rest.queue.trans aged.queue
  · rw [List.map_append, List.count_append, ← aged.copies id]
    have := rest.copies id
    have same : pruned.copies id = state.copies id := rfl
    omega
  · have pruned' := rest.known id session named
    simp only [hpruned, prune] at pruned'
    split_ifs at pruned'
    exact aged.known id session pruned'
  · rw [List.map_append, List.mem_append, not_or] at kept
    obtain ⟨pending, engine, sub⟩ := aged.engine
    obtain ⟨pending', engine', sub'⟩ := rest.engine
    have inside : op ∈ s.pending := by
      rw [SweepState.pending, engine'] at waiting
      have step := sub'.subset waiting
      rw [SweepState.pending, show pruned.coordinator.engine = state.coordinator.engine from rfl,
        engine] at step
      exact sub.subset step
    have present : (s.pending.any fun x => x.id = op.id) = true :=
      List.any_eq_true.mpr ⟨op, inside, decide_eq_true rfl⟩
    rw [rest.origins op.id kept.2, ← aged.origins op.id kept.1, hpruned, prune]
    simp only [present, if_true]

end SweepState

end ConfluenceEditor
