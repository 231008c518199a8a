/-
What one sweep evicts.

The operations that have waited too long since a sweep first noticed them are due, and the oldest of
the rest beyond the allowed number have no room. The source keeps the times and the origins by
identifier, but evicts one copy at a time: the first copy of an operation that is due takes the
records of the other copies along, which are then noticed anew. As long as none of the evicted
operations waits in several copies, a sweep is exact: `runOneDocument_eq` computes it, and
`exact_of_single` reads off what it is for.
-/

import ConfluenceEditor.Server.Sweep

namespace ConfluenceEditor

namespace SweepState

/-! ### What should be evicted -/

/-- When a sweep first noticed a waiting operation, if not this one did. -/
def since (seen : Identifier → Option Nat) (nowMs : Nat) (op : Operation) : Nat :=
  (seen op.id).getD nowMs

/-- The operation has waited for the timeout. -/
def Due (config : OfflineWindowConfig) (seen : Identifier → Option Nat) (nowMs : Nat)
    (op : Operation) : Prop :=
  since seen nowMs op + config.pendingRejectTimeoutMs ≤ nowMs

instance (config : OfflineWindowConfig) (seen : Identifier → Option Nat) (nowMs : Nat) :
    DecidablePred (Due config seen nowMs) := fun _ => inferInstanceAs (Decidable (_ ≤ _))

def expired (config : OfflineWindowConfig) (seen : Identifier → Option Nat) (nowMs : Nat)
    (pending : List Operation) : List Operation :=
  pending.filter fun op => decide (Due config seen nowMs op)

def unexpired (config : OfflineWindowConfig) (seen : Identifier → Option Nat) (nowMs : Nat)
    (pending : List Operation) : List Operation :=
  pending.filter fun op => !decide (Due config seen nowMs op)

/-- Of those that are not due, the oldest ones beyond the allowed number. -/
def oldest (config : OfflineWindowConfig) (seen : Identifier → Option Nat) (nowMs : Nat)
    (pending : List Operation) : List Operation :=
  ((unexpired config seen nowMs pending).insertionSort fun a b =>
    since seen nowMs a ≤ since seen nowMs b).take
      ((unexpired config seen nowMs pending).length - maxPending config)

/-- None of the operations that a sweep should evict waits in several copies. -/
def Single (config : OfflineWindowConfig) (seen : Identifier → Option Nat) (nowMs : Nat)
    (s : SweepState) : Prop :=
  ∀ op ∈ expired config seen nowMs s.pending ++ oldest config seen nowMs s.pending,
    s.copies op.id ≤ 1

instance (config : OfflineWindowConfig) (seen : Identifier → Option Nat) (nowMs : Nat)
    (s : SweepState) : Decidable (Single config seen nowMs s) :=
  inferInstanceAs (Decidable (∀ op ∈ _, _ ≤ 1))

/-- The session and the identifier of each entry of the frames. -/
def entries (rejects : List OpReject) : List (Nat × Identifier) :=
  rejects.flatMap fun frame => frame.rejectedIds.map fun id => (frame.session, id)

/-- A sweep evicts what is due and the oldest ones beyond the allowed number, each of them once, tells
the origins that are still connected once, and leaves everything else alone. -/
structure Exact (config : OfflineWindowConfig) (seen : Identifier → Option Nat) (nowMs : Nat)
    (origin : Operation → Option Nat) (s s' : SweepState) (evicted : List Operation)
    (rejects : List OpReject) : Prop where
  exactly : ∃ old, evicted = expired config seen nowMs s.pending ++ old ∧
    (old ++ s'.pending).Perm (unexpired config seen nowMs s.pending) ∧
    old.length = (unexpired config seen nowMs s.pending).length - maxPending config ∧
    ∀ a ∈ old, ∀ b ∈ s'.pending, since seen nowMs a ≤ since seen nowMs b
  once : (evicted.map Operation.id).Nodup
  few : s'.pending.length ≤ maxPending config
  /-- One entry for each evicted operation whose origin is connected, and no other entry. -/
  rejected : (entries rejects).Perm
    (evicted.filterMap fun op => (origin op).map fun session => (session, op.id))
  untouched : s'.pending.Sublist s.pending ∧ s'.coordinator = { s.coordinator with
    engine := { s.coordinator.engine with pending := s'.pending }
    pendingOpOrigin := s'.coordinator.pendingOpOrigin }
  origins : ∀ op ∈ s'.pending, s'.coordinator.pendingOpOrigin op.id =
    s.coordinator.pendingOpOrigin op.id
  times : ∀ op ∈ s'.pending, s'.pendingFirstSeenAtMs op.id = some (since seen nowMs op)
  tracked : ∀ id ∉ s'.pending.map Operation.id, s'.pendingFirstSeenAtMs id = none ∧
    s'.coordinator.pendingOpOrigin id = none

/-! ### What is evicted -/

/-- The state with another buffer and other records. -/
def put (s : SweepState) (pending : List Operation)
    (pendingOpOrigin pendingFirstSeenAtMs : Identifier → Option Nat) : SweepState where
  coordinator := { s.coordinator with
    engine := { s.coordinator.engine with pending }
    pendingOpOrigin }
  pendingFirstSeenAtMs

/-- The records without some identifiers. -/
def forget (records : Identifier → Option Nat) (ids : List Identifier) : Identifier → Option Nat :=
  fun id => if id ∈ ids then none else records id

/-- Neither the buffer nor the records know the identifiers any more. -/
def without (s : SweepState) (ids : List Identifier) : SweepState :=
  s.put (s.pending.filter fun op => op.id ∉ ids) (forget s.coordinator.pendingOpOrigin ids)
    (forget s.pendingFirstSeenAtMs ids)

/-- The records with a time for some identifiers that had none. -/
def note (records : Identifier → Option Nat) (nowMs : Nat) (ids : List Identifier) :
    Identifier → Option Nat :=
  fun id => if id ∈ ids then some ((records id).getD nowMs) else records id

/-- All of `ops` are noticed. -/
def noted (s : SweepState) (nowMs : Nat) (ops : List Operation) : SweepState :=
  { s with pendingFirstSeenAtMs := note s.pendingFirstSeenAtMs nowMs (ops.map Operation.id) }

section Passes

variable {config : OfflineWindowConfig} {nowMs : Nat} {s : SweepState} {ops : List Operation}
  {seen seen' : Identifier → Option Nat}

theorem put_congr {pending pending' : List Operation}
    {origins origins' : Identifier → Option Nat} (buffer : pending = pending')
    (origin : ∀ id, origins id = origins' id) (time : ∀ id, seen id = seen' id) :
    s.put pending origins seen = s.put pending' origins' seen' := by
  rw [buffer, show origins = origins' from funext origin, show seen = seen' from funext time]

theorem forget_forget (records : Identifier → Option Nat) (ids ids' : List Identifier) :
    forget (forget records ids) ids' = forget records (ids ++ ids') := by
  funext id
  by_cases here : id ∈ ids
  · simp [forget, here]
  · simp [forget, here]

theorem without_without (ids ids' : List Identifier) :
    (s.without ids).without ids' = s.without (ids ++ ids') := by
  refine put_congr ?_ (congrFun (forget_forget _ ids ids')) (congrFun (forget_forget _ ids ids'))
  show (List.filter _ (List.filter _ s.pending)) = _
  rw [List.filter_filter]
  refine List.filter_congr fun op _ => ?_
  rw [← Bool.decide_and, decide_eq_decide, List.mem_append, not_or, and_comm]

theorem without_nil : s.without [] = s := by
  have all : (s.pending.filter fun op => op.id ∉ ([] : List Identifier)) = s.pending :=
    List.filter_eq_self.mpr fun op _ => decide_eq_true List.not_mem_nil
  rw [without, all]
  rfl

theorem copies_without_le (ids : List Identifier) (id : Identifier) :
    (s.without ids).copies id ≤ s.copies id :=
  (List.filter_sublist.map Operation.id).count_le id

theorem eraseP_of_single (ops : List Operation) (id : Identifier)
    (single : (ops.map Operation.id).count id ≤ 1) :
    (ops.eraseP fun op => op.id = id) = ops.filter fun op => op.id ∉ [id] := by
  induction ops with
  | nil => rfl
  | cons op ops ih =>
      by_cases here : op.id = id
      · rw [List.map_cons, here, List.count_cons_self] at single
        have absent : id ∉ ops.map Operation.id := List.count_eq_zero.mp (by omega)
        rw [List.eraseP_cons_of_pos (by simpa using here),
          List.filter_cons_of_neg (by simpa using here)]
        refine (List.filter_eq_self.mpr fun x member => ?_).symm
        rw [decide_eq_true_iff, List.mem_singleton]
        exact fun same => absent (same ▸ List.mem_map_of_mem member)
      · rw [List.map_cons, List.count_cons_of_ne here] at single
        rw [List.eraseP_cons_of_neg (by simpa using here),
          List.filter_cons_of_pos (by simpa using here), ih single]

/-- An eviction of an operation that waits in one copy. -/
theorem evict_eq (op : Operation) (single : s.copies op.id ≤ 1) :
    s.evict op = s.without [op.id] := by
  have buffer : (s.coordinator.engine.rejectPending op.id).2 = { s.coordinator.engine with
      pending := s.pending.filter fun x => x.id ∉ [op.id] } := by
    rw [← eraseP_of_single s.pending op.id single, Engine.rejectPending]
    by_cases present : s.coordinator.engine.pending.any fun x => decide (x.id = op.id)
    · rw [if_pos present]
      rfl
    · rw [if_neg present]
      have same : (s.pending.eraseP fun x => decide (x.id = op.id)) = s.pending :=
        List.eraseP_of_forall_not fun x member here =>
          present (List.any_eq_true.mpr ⟨x, member, here⟩)
      rw [same]
      rfl
  have forgotten : ∀ f : Identifier → Option Nat, Function.update f op.id none =
      forget f [op.id] := fun f => by
    funext id
    rw [Function.update_apply, forget]
    exact if_congr List.mem_singleton.symm rfl rfl
  rw [evict, buffer, forgotten, forgotten]
  rfl

/-- Evicting several operations of which none waits in several copies. -/
theorem foldl_evict_eq (single : ∀ op ∈ ops, s.copies op.id ≤ 1) :
    ops.foldl evict s = s.without (ops.map Operation.id) := by
  induction ops generalizing s with
  | nil => exact without_nil.symm
  | cons op ops ih =>
      rw [List.foldl_cons, evict_eq op (single op List.mem_cons_self), ih, without_without]
      · rfl
      · intro x member
        exact Nat.le_trans (copies_without_le _ x.id) (single x (List.mem_cons_of_mem _ member))

theorem due_congr {op : Operation} (same : since seen nowMs op = since seen' nowMs op) :
    Due config seen nowMs op ↔ Due config seen' nowMs op := by
  rw [Due, Due, same]

theorem expired_congr (same : ∀ op ∈ ops, since seen nowMs op = since seen' nowMs op) :
    expired config seen nowMs ops = expired config seen' nowMs ops :=
  List.filter_congr fun op member => decide_eq_decide.mpr (due_congr (same op member))

theorem unexpired_congr (same : ∀ op ∈ ops, since seen nowMs op = since seen' nowMs op) :
    unexpired config seen nowMs ops = unexpired config seen' nowMs ops :=
  List.filter_congr fun op member =>
    congrArg (!·) (decide_eq_decide.mpr (due_congr (same op member)))

theorem insertionSort_congr (same : ∀ op ∈ ops, since seen nowMs op = since seen' nowMs op) :
    (ops.insertionSort fun a b => since seen nowMs a ≤ since seen nowMs b) =
      ops.insertionSort fun a b => since seen' nowMs a ≤ since seen' nowMs b := by
  have sorted := List.map_insertionSort
    (r := fun a b => since seen nowMs a ≤ since seen nowMs b)
    (s := fun a b => since seen' nowMs a ≤ since seen' nowMs b) id ops
    fun a inside b inside' => by
      rw [same a inside, same b inside']
      rfl
  rwa [List.map_id, List.map_id] at sorted

theorem oldest_congr (same : ∀ op ∈ ops, since seen nowMs op = since seen' nowMs op) :
    oldest config seen nowMs ops = oldest config seen' nowMs ops := by
  rw [oldest, oldest, ← unexpired_congr same]
  exact congrArg (List.take _) (insertionSort_congr fun op member =>
    same op (List.mem_of_mem_filter member))

section Note

variable {records : Identifier → Option Nat} {id : Identifier} {ids : List Identifier}

theorem note_update (unseen : records id = none) :
    note (Function.update records id (some nowMs)) nowMs ids = note records nowMs (id :: ids) := by
  funext x
  by_cases here : x = id
  · simp [note, here, unseen]
  · simp [note, here]

theorem note_cons_of_some {time : Nat} (seen : records id = some time) :
    note records nowMs (id :: ids) = note records nowMs ids := by
  funext x
  by_cases here : x = id
  · simp [note, here, seen]
  · simp [note, here]

theorem note_forget (absent : id ∉ ids) :
    note (forget records [id]) nowMs ids = forget (note records nowMs ids) [id] := by
  funext x
  by_cases here : x = id
  · simp [note, forget, here, absent]
  · simp [note, forget, here]

end Note

/-- What is noticed by this sweep is not due. -/
theorem not_due_of_none (grace : 0 < config.pendingRejectTimeoutMs) {op : Operation}
    (unseen : seen op.id = none) : ¬ Due config seen nowMs op := by
  rw [Due, since, unseen, Option.getD_none]
  omega

theorem expired_cons (op : Operation) : expired config seen nowMs (op :: ops) =
    if Due config seen nowMs op then op :: expired config seen nowMs ops
    else expired config seen nowMs ops := by
  rw [expired, List.filter_cons]
  exact if_congr decide_eq_true_iff rfl rfl

/-- The age pass notices everything and evicts what is due. -/
theorem agePass_eq (grace : 0 < config.pendingRejectTimeoutMs) (sub : ops.Sublist s.pending)
    (single : ∀ op ∈ expired config s.pendingFirstSeenAtMs nowMs ops, s.copies op.id ≤ 1) :
    s.agePass nowMs config.pendingRejectTimeoutMs ops =
      ((s.noted nowMs ops).without
          ((expired config s.pendingFirstSeenAtMs nowMs ops).map Operation.id),
        expired config s.pendingFirstSeenAtMs nowMs ops) := by
  induction ops generalizing s with
  | nil => exact congrArg (·, []) without_nil.symm
  | cons op ops ih =>
      rw [expired_cons] at single ⊢
      rw [agePass]
      cases seen : s.pendingFirstSeenAtMs op.id with
      | none =>
          rw [if_neg (not_due_of_none grace seen)] at single ⊢
          set s₁ : SweepState := { s with
            pendingFirstSeenAtMs := Function.update s.pendingFirstSeenAtMs op.id (some nowMs) }
          have times : ∀ x : Operation, since s₁.pendingFirstSeenAtMs nowMs x =
              since s.pendingFirstSeenAtMs nowMs x := by
            intro x
            show (Function.update s.pendingFirstSeenAtMs op.id (some nowMs) x.id).getD nowMs = _
            by_cases here : x.id = op.id
            · rw [since, here, Function.update_self, seen]
              rfl
            · rw [Function.update_of_ne here]
              rfl
          have same : expired config s₁.pendingFirstSeenAtMs nowMs ops =
              expired config s.pendingFirstSeenAtMs nowMs ops := expired_congr fun x _ => times x
          have noticed : s₁.noted nowMs ops = s.noted nowMs (op :: ops) :=
            congrArg (SweepState.mk _) (note_update seen)
          have rest := ih (s := s₁) ((List.sublist_cons_self op ops).trans sub) (same ▸ single)
          rw [same, noticed] at rest
          exact rest
      | some firstSeen =>
          have time : since s.pendingFirstSeenAtMs nowMs op = firstSeen := by
            rw [since, seen, Option.getD_some]
          have marks : s.noted nowMs (op :: ops) = s.noted nowMs ops :=
            congrArg (SweepState.mk _) (note_cons_of_some seen)
          by_cases early : nowMs < firstSeen + config.pendingRejectTimeoutMs
          · have undue : ¬ Due config s.pendingFirstSeenAtMs nowMs op := by
              rw [Due, time]
              omega
            rw [if_neg undue] at single ⊢
            rw [marks]
            show (if _ then _ else _) = _
            rw [if_pos early]
            exact ih ((List.sublist_cons_self op ops).trans sub) single
          · have due : Due config s.pendingFirstSeenAtMs nowMs op := by
              rw [Due, time]
              omega
            rw [if_pos due] at single ⊢
            rw [marks]
            show (if _ then _ else _) = _
            rw [if_neg early]
            have one := single op List.mem_cons_self
            -- no other copy of the operation is ahead
            have absent : op.id ∉ ops.map Operation.id := by
              have counted := (sub.map Operation.id).count_le op.id
              rw [List.map_cons, List.count_cons_self] at counted
              rw [SweepState.copies] at one
              exact List.count_eq_zero.mp (by omega)
            have other : ∀ x ∈ ops, x.id ∉ [op.id] := fun x member inside =>
              absent (List.mem_singleton.mp inside ▸ List.mem_map_of_mem member)
            have same : expired config (s.without [op.id]).pendingFirstSeenAtMs nowMs ops =
                expired config s.pendingFirstSeenAtMs nowMs ops :=
              expired_congr fun x member => congrArg (Option.getD · nowMs) (if_neg (other x member))
            have kept : ops.Sublist (s.without [op.id]).pending := by
              have filtered := ((List.sublist_cons_self op ops).trans sub).filter
                fun x => decide (x.id ∉ [op.id])
              rwa [List.filter_eq_self.mpr fun x member => decide_eq_true (other x member)]
                at filtered
            have rest := ih (s := s.without [op.id]) kept (by
              rw [same]
              exact fun x member => Nat.le_trans (copies_without_le _ x.id)
                (single x (List.mem_cons_of_mem _ member)))
            have swapped : (s.without [op.id]).noted nowMs ops =
                (s.noted nowMs ops).without [op.id] :=
              congrArg (SweepState.mk _) (note_forget absent)
            rw [evict_eq op one, rest, same, swapped, without_without]
            rfl

/-- An operation that waits is due exactly when its identifier is that of one that is. -/
theorem mem_expired_ids {op : Operation} (member : op ∈ ops) :
    op.id ∈ (expired config seen nowMs ops).map Operation.id ↔ Due config seen nowMs op := by
  constructor
  · intro inside
    have ⟨x, there, same⟩ := List.mem_map.mp inside
    have due := of_decide_eq_true (List.mem_filter.mp there).2
    rwa [Due, since, same] at due
  · intro due
    exact List.mem_map_of_mem (List.mem_filter.mpr ⟨member, decide_eq_true due⟩)

theorem filter_expired_ids : (ops.filter fun op =>
    op.id ∉ (expired config seen nowMs ops).map Operation.id) = unexpired config seen nowMs ops :=
  List.filter_congr fun op member => by
    rw [← decide_not]
    exact decide_eq_decide.mpr (not_congr (mem_expired_ids member))

theorem oldest_subperm (config : OfflineWindowConfig) (seen : Identifier → Option Nat)
    (nowMs : Nat) (ops : List Operation) :
    (oldest config seen nowMs ops).Subperm (unexpired config seen nowMs ops) :=
  (List.take_sublist ..).subperm.trans (List.perm_insertionSort ..).subperm

/-- Each copy is evicted once at most. -/
theorem count_evicted_le (id : Identifier) :
    ((expired config seen nowMs ops ++ oldest config seen nowMs ops).map Operation.id).count id ≤
      (ops.map Operation.id).count id := by
  have parts : (expired config seen nowMs ops ++ unexpired config seen nowMs ops).Perm ops :=
    List.filter_append_perm ..
  have ⟨old, same, sub⟩ := oldest_subperm config seen nowMs ops
  rw [List.map_append, List.count_append, ← (parts.map Operation.id).count_eq, List.map_append,
    List.count_append, ← (same.map Operation.id).count_eq]
  exact Nat.add_le_add_left ((sub.map Operation.id).count_le id) _

theorem any_id_iff (ops : List Operation) (id : Identifier) :
    (ops.any fun op => decide (op.id = id)) = true ↔ id ∈ ops.map Operation.id := by
  rw [List.any_eq_true, List.mem_map]
  exact exists_congr fun op => and_congr_right fun _ => decide_eq_true_iff

theorem prune_without (ids : List Identifier) :
    (s.without ids).prune ops = (s.prune ops).without ids := by
  have swap : ∀ (records : Identifier → Option Nat) (id : Identifier),
      (if ops.any fun op => op.id = id then forget records ids id else none) =
        forget (fun id => if ops.any fun op => op.id = id then records id else none) ids id := by
    intro records id
    unfold forget
    by_cases gone : id ∈ ids
    · rw [if_pos gone, if_pos gone, ite_self]
    · rw [if_neg gone, if_neg gone]
  exact put_congr rfl (swap _) (swap _)

/-- A sweep evicts exactly what is due and the oldest ones beyond the allowed number. -/
theorem runOneDocument_eq (grace : 0 < config.pendingRejectTimeoutMs)
    (single : Single config s.pendingFirstSeenAtMs nowMs s) (sessions : List (Nat × Nat)) :
    s.runOneDocument sessions config nowMs =
      (((s.noted nowMs s.pending).prune s.pending).without
          ((expired config s.pendingFirstSeenAtMs nowMs s.pending ++
            oldest config s.pendingFirstSeenAtMs nowMs s.pending).map Operation.id),
        expired config s.pendingFirstSeenAtMs nowMs s.pending ++
          oldest config s.pendingFirstSeenAtMs nowMs s.pending,
        ageRejects sessions config.pendingRejectTimeoutMs
            (expired config s.pendingFirstSeenAtMs nowMs s.pending) ++
          overflowRejects sessions (maxPending config)
            (oldest config s.pendingFirstSeenAtMs nowMs s.pending)) := by
  have aged := agePass_eq grace (List.Sublist.refl s.pending) fun op member =>
    single op (List.mem_append_left _ member)
  set out := expired config s.pendingFirstSeenAtMs nowMs s.pending with hout
  set old := oldest config s.pendingFirstSeenAtMs nowMs s.pending with hold
  set kept := (s.noted nowMs s.pending).prune s.pending with hkept
  have left : (kept.without (out.map Operation.id)).pending =
      unexpired config s.pendingFirstSeenAtMs nowMs s.pending := filter_expired_ids
  have times : ∀ op ∈ unexpired config s.pendingFirstSeenAtMs nowMs s.pending,
      since (kept.without (out.map Operation.id)).pendingFirstSeenAtMs nowMs op =
        since s.pendingFirstSeenAtMs nowMs op := by
    intro op member
    have ⟨waiting, _⟩ := List.mem_filter.mp member
    have inside : op.id ∈ s.pending.map Operation.id := List.mem_map_of_mem waiting
    have absent : op.id ∉ out.map Operation.id := by
      rw [← left] at member
      exact of_decide_eq_true (List.mem_filter.mp member).2
    have time : (kept.without (out.map Operation.id)).pendingFirstSeenAtMs op.id =
        some (since s.pendingFirstSeenAtMs nowMs op) :=
      (if_neg absent).trans ((if_pos ((any_id_iff ..).mpr inside)).trans (if_pos inside))
    rw [since, time]
    rfl
  have overflow : (kept.without (out.map Operation.id)).oldestFirst nowMs (maxPending config) =
      old := by
    rw [oldestFirst, left]
    exact congrArg (List.take _) (insertionSort_congr times)
  have evictions : old.foldl evict (kept.without (out.map Operation.id)) =
      kept.without ((out ++ old).map Operation.id) := by
    rw [foldl_evict_eq, without_without, List.map_append]
    intro op member
    exact Nat.le_trans (copies_without_le _ op.id) (single op (List.mem_append_right _ member))
  rw [runOneDocument, aged]
  simp only [prune_without, ← hkept, overflow, evictions]

end Passes

/-! ### Who is told -/

/-- The sessions and identifiers that are listed in the buckets. -/
def bucketEntries (buckets : List (Nat × List Operation)) : List (Nat × Identifier) :=
  buckets.flatMap fun bucket => bucket.2.map fun op => (bucket.1, op.id)

section Rejects

variable {sessions : List (Nat × Nat)} {session : Nat} {op : Operation}
  {buckets : List (Nat × List Operation)}

theorem bucketEntries_extend (keys : (buckets.map Prod.fst).Nodup)
    (present : session ∈ buckets.map Prod.fst) :
    (bucketEntries (buckets.map fun bucket =>
      if bucket.1 = session then (session, bucket.2 ++ [op]) else bucket)).Perm
      (bucketEntries buckets ++ [(session, op.id)]) := by
  induction buckets with
  | nil => cases present
  | cons bucket buckets ih =>
      rw [List.map_cons, List.nodup_cons] at keys
      rw [List.map_cons]
      by_cases here : bucket.1 = session
      · have others : (buckets.map fun bucket =>
            if bucket.1 = session then (session, bucket.2 ++ [op]) else bucket) = buckets := by
          refine (List.map_congr_left fun b member => ?_).trans (List.map_id buckets)
          refine if_neg fun same => keys.1 ?_
          rw [here, ← same]
          exact List.mem_map_of_mem member
        rw [if_pos here, others, bucketEntries, bucketEntries, List.flatMap_cons, List.flatMap_cons,
          List.map_append, List.append_assoc, List.append_assoc, here]
        exact List.perm_append_comm.append_left _
      · rw [if_neg here]
        have later := (List.mem_cons.mp present).resolve_left fun same => here same.symm
        have rest := ih keys.2 later
        rw [bucketEntries, bucketEntries, List.flatMap_cons, List.flatMap_cons, List.append_assoc]
        exact rest.append_left _

theorem addToBucket_spec (keys : (buckets.map Prod.fst).Nodup) (session : Nat) (op : Operation) :
    ((addToBucket buckets session op).map Prod.fst).Nodup ∧
      (bucketEntries (addToBucket buckets session op)).Perm
        (bucketEntries buckets ++ [(session, op.id)]) := by
  have present : (buckets.any fun bucket => bucket.1 = session) = true ↔
      session ∈ buckets.map Prod.fst := by
    rw [List.any_eq_true, List.mem_map]
    exact exists_congr fun bucket => and_congr_right fun _ => decide_eq_true_iff
  rw [addToBucket]
  by_cases listed : (buckets.any fun bucket => bucket.1 = session) = true
  · rw [if_pos listed]
    have same : (buckets.map fun bucket =>
        if bucket.1 = session then (session, bucket.2 ++ [op]) else bucket).map Prod.fst =
          buckets.map Prod.fst := by
      rw [List.map_map]
      refine List.map_congr_left fun bucket _ => ?_
      by_cases here : bucket.1 = session
      · rw [Function.comp_apply, if_pos here, here]
      · rw [Function.comp_apply, if_neg here]
    exact ⟨same ▸ keys, bucketEntries_extend keys (present.mp listed)⟩
  · rw [if_neg listed]
    constructor
    · rw [List.map_append]
      refine List.nodup_append.mpr ⟨keys, List.nodup_singleton _, fun a inside b last same => ?_⟩
      rw [same, List.mem_singleton.mp last] at inside
      exact listed (present.mpr inside)
    · rw [bucketEntries, bucketEntries, List.flatMap_append]
      exact List.Perm.refl _

/-- Operations put into buckets, those without a session left out. -/
theorem perm_fill {f : List (Nat × List Operation) → Operation → List (Nat × List Operation)}
    (missing : ∀ buckets op, getSessionByReplicaId sessions op.id.r = none → f buckets op = buckets)
    (found : ∀ buckets op session, getSessionByReplicaId sessions op.id.r = some session →
      f buckets op = addToBucket buckets session op)
    (ops : List Operation) (keys : (buckets.map Prod.fst).Nodup) :
    (bucketEntries (ops.foldl f buckets)).Perm (bucketEntries buckets ++ ops.filterMap fun op =>
      (getSessionByReplicaId sessions op.id.r).map fun session => (session, op.id)) := by
  induction ops generalizing buckets with
  | nil =>
      rw [List.filterMap_nil, List.append_nil]
      exact List.Perm.refl _
  | cons op ops ih =>
      rw [List.foldl_cons, List.filterMap_cons]
      cases here : getSessionByReplicaId sessions op.id.r with
      | none =>
          rw [missing buckets op here]
          exact ih keys
      | some session =>
          obtain ⟨keys', added⟩ := addToBucket_spec keys session op
          rw [found buckets op session here]
          refine (ih keys').trans ((added.append_right _).trans ?_)
          rw [List.append_assoc]
          exact List.Perm.refl _

/-- One frame for each bucket. -/
theorem entries_map {frame : Nat × List Operation → OpReject}
    (session : ∀ bucket, (frame bucket).session = bucket.1)
    (ids : ∀ bucket, (frame bucket).rejectedIds = bucket.2.map Operation.id)
    (buckets : List (Nat × List Operation)) :
    entries (buckets.map frame) = bucketEntries buckets := by
  rw [entries, List.flatMap_map, bucketEntries]
  refine List.flatMap_congr fun bucket _ => ?_
  rw [session, ids, List.map_map]
  rfl

/-- The frames of the age pass name each evicted operation whose session is found, once. -/
theorem entries_ageRejects (sessions : List (Nat × Nat)) (timeout : Nat) (ops : List Operation) :
    (entries (ageRejects sessions timeout ops)).Perm (ops.filterMap fun op =>
      (getSessionByReplicaId sessions op.id.r).map fun session => (session, op.id)) := by
  rw [ageRejects, entries_map]
  · refine perm_fill (fun buckets op here => ?_) (fun buckets op session here => ?_) ops
      List.nodup_nil
    · simp only [here]
    · simp only [here]
  · exact fun _ => rfl
  · exact fun _ => rfl

theorem entries_overflowRejects (sessions : List (Nat × Nat)) (allowed : Nat)
    (ops : List Operation) :
    entries (overflowRejects sessions allowed ops) = ops.filterMap fun op =>
      (getSessionByReplicaId sessions op.id.r).map fun session => (session, op.id) := by
  induction ops with
  | nil => rfl
  | cons op ops ih =>
      rw [overflowRejects, entries] at ih ⊢
      cases found : getSessionByReplicaId sessions op.id.r with
      | none =>
          rw [List.filterMap_cons, List.filterMap_cons, found]
          exact ih
      | some session =>
          rw [List.filterMap_cons, List.filterMap_cons, found]
          exact congrArg ((session, op.id) :: ·) ih

end Rejects

/-! ### One sweep -/

section Sweep

variable {config : OfflineWindowConfig} {nowMs : Nat} {s : SweepState} {ops : List Operation}
  {seen : Identifier → Option Nat}

/-- The oldest ones and what is left of the rest. -/
theorem oldest_split (single : ∀ op ∈ oldest config seen nowMs ops,
      (ops.map Operation.id).count op.id ≤ 1) :
    (oldest config seen nowMs ops ++ (unexpired config seen nowMs ops).filter fun op =>
        op.id ∉ (oldest config seen nowMs ops).map Operation.id).Perm
      (unexpired config seen nowMs ops) ∧
    ∀ a ∈ oldest config seen nowMs ops, ∀ b ∈ (unexpired config seen nowMs ops).filter fun op =>
      op.id ∉ (oldest config seen nowMs ops).map Operation.id,
      since seen nowMs a ≤ since seen nowMs b := by
  set rest := unexpired config seen nowMs ops with hrest
  set sorted := rest.insertionSort fun a b => since seen nowMs a ≤ since seen nowMs b with hsorted
  have perm : sorted.Perm rest := List.perm_insertionSort ..
  have old : oldest config seen nowMs ops = sorted.take (rest.length - maxPending config) := rfl
  rw [old] at single ⊢
  set n := rest.length - maxPending config
  -- the later ones have other identifiers
  have apart : ∀ b ∈ sorted.drop n, b.id ∉ (sorted.take n).map Operation.id := by
    intro b later earlier
    have ⟨a, inside, same⟩ := List.mem_map.mp earlier
    have one := single a inside
    have sub := ((List.filter_sublist (p := fun op =>
      !decide (Due config seen nowMs op)) (l := ops)).map Operation.id).count_le a.id
    have counted := (perm.map Operation.id).count_eq a.id
    rw [← List.take_append_drop n sorted, List.map_append, List.count_append] at counted
    have first : 0 < ((sorted.take n).map Operation.id).count a.id :=
      List.count_pos_iff.mpr (List.mem_map_of_mem inside)
    have second : 0 < ((sorted.drop n).map Operation.id).count a.id :=
      List.count_pos_iff.mpr (same ▸ List.mem_map_of_mem later)
    rw [hrest, unexpired] at counted
    omega
  have left : (rest.filter fun op => op.id ∉ (sorted.take n).map Operation.id).Perm
      (sorted.drop n) := by
    refine (perm.symm.filter _).trans (List.Perm.of_eq ?_)
    have none : ((sorted.take n).filter fun op => op.id ∉ (sorted.take n).map Operation.id) = [] :=
      List.filter_eq_nil_iff.mpr fun a inside => by
        rw [decide_eq_true_iff]
        exact not_not.mpr (List.mem_map_of_mem inside)
    have all : ((sorted.drop n).filter fun op => op.id ∉ (sorted.take n).map Operation.id) =
        sorted.drop n := List.filter_eq_self.mpr fun b later => decide_eq_true (apart b later)
    have parts := congrArg (List.filter fun op => decide (op.id ∉ (sorted.take n).map Operation.id))
      (List.take_append_drop n sorted)
    rw [← parts, List.filter_append, none, all, List.nil_append]
  constructor
  · refine (left.append_left _).trans ?_
    rw [List.take_append_drop]
    exact perm
  · intro a earlier b later
    have : Std.Total fun a b : Operation => since seen nowMs a ≤ since seen nowMs b :=
      ⟨fun a b => Nat.le_total _ _⟩
    have : IsTrans Operation fun a b => since seen nowMs a ≤ since seen nowMs b :=
      ⟨fun a b c => Nat.le_trans⟩
    have ordered := List.pairwise_insertionSort
      (fun a b : Operation => since seen nowMs a ≤ since seen nowMs b) rest
    rw [← hsorted, ← List.take_append_drop n sorted, List.pairwise_append] at ordered
    exact ordered.2.2 a earlier b (left.mem_iff.mp later)

/-- A sweep is exact if none of the operations that it should evict waits in several copies. -/
theorem exact_of_single (grace : 0 < config.pendingRejectTimeoutMs)
    (noticed : ∀ op ∈ s.pending, s.pendingFirstSeenAtMs op.id = seen op.id)
    (single : Single config seen nowMs s) {sessions : List (Nat × Nat)}
    {origin : Operation → Option Nat}
    (found : ∀ op ∈ s.pending, getSessionByReplicaId sessions op.id.r = origin op) :
    Exact config seen nowMs origin s (s.runOneDocument sessions config nowMs).1
      (s.runOneDocument sessions config nowMs).2.1 (s.runOneDocument sessions config nowMs).2.2 := by
  have times : ∀ op ∈ s.pending, since s.pendingFirstSeenAtMs nowMs op = since seen nowMs op :=
    fun op member => congrArg (Option.getD · nowMs) (noticed op member)
  have single' : Single config s.pendingFirstSeenAtMs nowMs s := by
    rw [Single, expired_congr times, oldest_congr times]
    exact single
  rw [runOneDocument_eq grace single', expired_congr times, oldest_congr times]
  rw [Single] at single
  set out := expired config seen nowMs s.pending with hout
  set old := oldest config seen nowMs s.pending with hold
  set kept := (s.noted nowMs s.pending).prune s.pending with hkept
  have left : (kept.without ((out ++ old).map Operation.id)).pending =
      (unexpired config seen nowMs s.pending).filter fun op => op.id ∉ old.map Operation.id := by
    rw [List.map_append, ← without_without, ← filter_expired_ids]
    rfl
  have alone : ∀ op ∈ oldest config seen nowMs s.pending,
      (s.pending.map Operation.id).count op.id ≤ 1 :=
    fun op member => single op (List.mem_append_right _ member)
  have ⟨split, ordered⟩ := oldest_split alone
  rw [← hold, ← left] at split
  rw [← hold, ← left] at ordered
  have length : old.length = (unexpired config seen nowMs s.pending).length - maxPending config := by
    rw [hold, oldest, List.length_take, List.length_insertionSort]
    exact Nat.min_eq_left (Nat.sub_le ..)
  have sub : (kept.without ((out ++ old).map Operation.id)).pending.Sublist s.pending :=
    List.filter_sublist
  refine ⟨⟨old, rfl, split, length, ordered⟩, ?_, ?_, ?_, ⟨sub, rfl⟩, ?_, ?_, ?_⟩
  · rw [List.nodup_iff_count_le_one]
    intro id
    by_cases inside : id ∈ (out ++ old).map Operation.id
    · have ⟨op, member, same⟩ := List.mem_map.mp inside
      rw [← same]
      exact Nat.le_trans (count_evicted_le op.id) (single op member)
    · rw [List.count_eq_zero.mpr inside]
      exact Nat.zero_le 1
  · have total := split.length_eq
    rw [List.length_append] at total
    show (kept.without ((out ++ old).map Operation.id)).pending.length ≤ _
    omega
  · have told : ∀ ops : List Operation, ops ⊆ s.pending → (ops.filterMap fun op =>
        (getSessionByReplicaId sessions op.id.r).map fun session => (session, op.id)) =
          ops.filterMap fun op => (origin op).map fun session => (session, op.id) := by
      intro ops inside
      exact List.filterMap_congr fun op member => by rw [found op (inside member)]
    have expiredIn : out ⊆ s.pending := fun op member => List.mem_of_mem_filter member
    have oldIn : old ⊆ s.pending := fun op member =>
      List.mem_of_mem_filter (split.mem_iff.mp (List.mem_append_left _ member))
    rw [entries, List.flatMap_append, List.filterMap_append, ← told out expiredIn, ← told old oldIn,
      ← entries_overflowRejects sessions (maxPending config) old]
    exact (entries_ageRejects sessions config.pendingRejectTimeoutMs out).append_right _
  · intro op member
    have present : (s.pending.any fun x => x.id = op.id) = true :=
      (any_id_iff ..).mpr (List.mem_map_of_mem (sub.subset member))
    have stays := of_decide_eq_true (List.mem_filter.mp member).2
    exact (if_neg stays).trans (if_pos present)
  · intro op member
    have inside := List.mem_map_of_mem (f := Operation.id) (sub.subset member)
    have stays := of_decide_eq_true (List.mem_filter.mp member).2
    rw [← times op (sub.subset member)]
    exact (if_neg stays).trans ((if_pos ((any_id_iff ..).mpr inside)).trans (if_pos inside))
  · intro id absent
    have gone : id ∈ (out ++ old).map Operation.id ∨
        ¬ (s.pending.any fun x => x.id = id) = true := by
      by_contra still
      have ⟨stays, present⟩ := not_or.mp still
      have ⟨op, member, same⟩ := List.mem_map.mp ((any_id_iff ..).mp (not_not.mp present))
      refine absent (List.mem_map.mpr ⟨op, List.mem_filter.mpr ⟨member, decide_eq_true ?_⟩, same⟩)
      rwa [same]
    have clear : ∀ records : Identifier → Option Nat,
        forget (fun id => if s.pending.any fun x => x.id = id then records id else none)
          ((out ++ old).map Operation.id) id = none := by
      intro records
      rw [forget]
      by_cases evicted : id ∈ (out ++ old).map Operation.id
      · exact if_pos evicted
      · rw [if_neg evicted]
        exact if_neg (gone.resolve_left evicted)
    exact ⟨clear _, clear _⟩

end Sweep

end SweepState

end ConfluenceEditor
