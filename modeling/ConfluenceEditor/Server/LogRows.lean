/-
The rows of a document whose commits succeed.

An operation is finalized under the next number and gets a row unless its stamp has one already
(`logRows`). While no commit fails, the commits land in the order of their numbers, so the rows are
those of the operations of the first commits (`Lined`), and of all finalized operations once
everything has landed (`Lined.drained`).
-/

import ConfluenceEditor.Engine.Sequence
import ConfluenceEditor.Library.Slots
import ConfluenceEditor.Server.CommitQueue

namespace ConfluenceEditor

/-! ### The rows of a log -/

/-- Insert a row unless its stamp is taken. -/
def insertRow (rows : List (Nat × Operation)) (row : Nat × Operation) : List (Nat × Operation) :=
  if rows.any fun r => r.2.id = row.2.id then rows else rows ++ [row]

/-- Consecutive numbers. -/
def numberedFrom (first : Nat) (ops : List Operation) : List (Nat × Operation) :=
  (ops.zipIdx first).map Prod.swap

/-- The rows that the operations have once all of them are committed. -/
def logRows (ops : List Operation) : List (Nat × Operation) :=
  (numberedFrom 1 ops).foldl insertRow []

/-- The whole log with its numbers. -/
def Store.loadFullOperationLogWithSeq (s : Store) : List (Nat × Operation) :=
  s.operations.map fun row => (row.seq, row.op)

theorem map_snd_numberedFrom (first : Nat) (ops : List Operation) :
    (numberedFrom first ops).map Prod.snd = ops := by
  rw [numberedFrom, List.map_map]
  exact List.zipIdx_map_fst first ops

theorem mem_of_numberedFrom {first : Nat} {ops : List Operation} {row : Nat × Operation}
    (member : row ∈ numberedFrom first ops) : row.2 ∈ ops := by
  rw [← map_snd_numberedFrom first ops]
  exact List.mem_map_of_mem member

theorem numberedFrom_append (first : Nat) (ops later : List Operation) :
    numberedFrom first (ops ++ later) =
      numberedFrom first ops ++ numberedFrom (first + ops.length) later := by
  rw [numberedFrom, List.zipIdx_append, List.map_append]
  rfl

theorem numberedFrom_bounds {first : Nat} {ops : List Operation} {row : Nat × Operation}
    (member : row ∈ numberedFrom first ops) : first ≤ row.1 ∧ row.1 < first + ops.length := by
  obtain ⟨⟨op, k⟩, inside, rfl⟩ := List.mem_map.mp member
  exact ⟨List.le_snd_of_mem_zipIdx inside, List.snd_lt_add_of_mem_zipIdx inside⟩

theorem logRows_append (ops later : List Operation) : logRows (ops ++ later) =
    (numberedFrom (ops.length + 1) later).foldl insertRow (logRows ops) := by
  rw [logRows, numberedFrom_append, List.foldl_append, Nat.add_comm]
  rfl

/-- The rows that are added: one for every stamp that had none. -/
theorem foldl_insertRow (rows new : List (Nat × Operation))
    (distinct : DistinctIds (rows.map Prod.snd ++ new.map Prod.snd)) :
    ∃ added, new.foldl insertRow rows = rows ++ added ∧ added.Sublist new ∧
      (∀ op ∈ new.map Prod.snd, op ∈ rows.map Prod.snd ++ added.map Prod.snd) ∧
      ((new.map Prod.snd).Nodup → added.map Prod.snd =
        (new.map Prod.snd).filter fun op => decide (op ∉ rows.map Prod.snd)) := by
  induction new generalizing rows with
  | nil => exact ⟨[], (List.append_nil _).symm, .refl _, nofun, fun _ => rfl⟩
  | cons row new ih =>
      have inside : row.2 ∈ rows.map Prod.snd ++ (row :: new).map Prod.snd := by simp
      have taken_iff : (rows.any fun r => r.2.id = row.2.id) = true ↔ row.2 ∈ rows.map Prod.snd := by
        rw [List.any_eq_true]
        constructor
        · rintro ⟨r, member, same⟩
          have inRows : r.2 ∈ rows.map Prod.snd := List.mem_map_of_mem member
          rwa [← distinct r.2 (List.mem_append_left _ inRows) row.2 inside
            (of_decide_eq_true same)]
        · intro member
          obtain ⟨r, old, same⟩ := List.mem_map.mp member
          exact ⟨r, old, by simp [same]⟩
      rw [List.foldl_cons, insertRow]
      by_cases taken : row.2 ∈ rows.map Prod.snd
      · rw [if_pos (taken_iff.mpr taken)]
        obtain ⟨added, folded, sub, all, exact⟩ := ih rows (distinct.subset fun op member => by
          rcases List.mem_append.mp member with old | later
          · exact List.mem_append_left _ old
          · exact List.mem_append_right _ (List.mem_cons_of_mem _ later))
        refine ⟨added, folded, sub.trans (List.sublist_cons_self ..), fun op member => ?_,
          fun nodup => ?_⟩
        · rcases List.mem_cons.mp member with rfl | later
          · exact List.mem_append_left _ taken
          · exact all op later
        · rw [exact (List.nodup_cons.mp nodup).2, List.map_cons, List.filter_cons_of_neg]
          simpa using taken
      · rw [if_neg fun known => taken (taken_iff.mp known)]
        have map' : (rows ++ [row]).map Prod.snd = rows.map Prod.snd ++ [row.2] := List.map_append
        obtain ⟨added, folded, sub, all, exact⟩ := ih (rows ++ [row])
          (by rwa [map', List.append_assoc])
        refine ⟨row :: added, by rw [folded, List.append_assoc]; rfl, sub.cons_cons _, fun op member => ?_,
          fun nodup => ?_⟩
        · rw [map', List.append_assoc] at all
          rcases List.mem_cons.mp member with rfl | later
          · simp
          · exact all op later
        · obtain ⟨apart, rest⟩ := List.nodup_cons.mp nodup
          rw [List.map_cons, List.map_cons, List.filter_cons_of_pos (by simpa using taken), exact rest,
            map']
          congr 1
          refine List.filter_congr fun op member => ?_
          have other : op ≠ row.2 := fun same => apart (same ▸ member)
          simp [other]

/-- A transaction above all rows adds its rows. -/
theorem Store.load_insertAll (s : Store) (seq committedAtMs : Nat) (ops : List Operation)
    (below : ∀ row ∈ s.operations, row.seq < seq) :
    (s.insertAll seq committedAtMs ops).2.loadFullOperationLogWithSeq =
      (numberedFrom seq ops).foldl insertRow s.loadFullOperationLogWithSeq := by
  induction ops generalizing s seq with
  | nil => rfl
  | cons op ops ih =>
      have taken_iff : (s.loadFullOperationLogWithSeq.any fun r => r.2.id = op.id) = true ↔
          s.Durable op.id := by
        simp [loadFullOperationLogWithSeq, Durable]
      rw [insertAll, show numberedFrom seq (op :: ops) = (seq, op) :: numberedFrom (seq + 1) ops
        from rfl, List.foldl_cons, insertRow]
      rcases insertOperation_cases ⟨seq, op, committedAtMs⟩ below with
        ⟨taken, refused⟩ | ⟨free, inserted⟩
      · rw [refused, if_pos (taken_iff.mpr taken)]
        exact ih s (seq + 1) fun row member => Nat.lt_succ_of_lt (below row member)
      · rw [inserted, if_neg fun known => free (taken_iff.mp known)]
        have grown := ih { s with operations := s.operations ++ [⟨seq, op, committedAtMs⟩] } (seq + 1)
          fun row member => by
            rcases List.mem_append.mp member with old | last
            · exact Nat.lt_succ_of_lt (below row old)
            · rw [List.mem_singleton.mp last]
              exact Nat.lt_succ_self seq
        refine grown.trans ?_
        congr 1
        rw [loadFullOperationLogWithSeq, List.map_append]
        rfl

theorem logRows_sublist {known : List Operation} (distinct : DistinctIds known)
    {ops : List Operation} (inside : ∀ op ∈ ops, op ∈ known) :
    (logRows ops).Sublist (numberedFrom 1 ops) ∧
      ∀ op, op ∈ (logRows ops).map Prod.snd ↔ op ∈ ops := by
  obtain ⟨added, folded, sub, all, -⟩ := foldl_insertRow [] (numberedFrom 1 ops)
    (by
      rw [map_snd_numberedFrom]
      exact distinct.subset inside)
  rw [List.nil_append] at folded
  rw [map_snd_numberedFrom] at all
  rw [logRows, folded]
  refine ⟨sub, fun op => ⟨fun member => ?_, all op⟩⟩
  have from_ := (sub.map Prod.snd).subset member
  rwa [map_snd_numberedFrom] at from_

/-- The rows up to a number are those of the first operations. -/
theorem takeWhile_logRows {known : List Operation} (distinct : DistinctIds known)
    {ops : List Operation} (inside : ∀ op ∈ ops, op ∈ known) (k : Nat) :
    (logRows ops).takeWhile (fun row => row.1 ≤ k) = logRows (ops.take k) := by
  have first : ∀ op ∈ ops.take k, op ∈ known := fun op member => inside op (List.mem_of_mem_take member)
  obtain ⟨sub, same⟩ := logRows_sublist distinct first
  obtain ⟨added, folded, later, -, -⟩ := foldl_insertRow (logRows (ops.take k))
    (numberedFrom ((ops.take k).length + 1) (ops.drop k)) (distinct.subset fun op member => by
      rw [map_snd_numberedFrom] at member
      rcases List.mem_append.mp member with old | new
      · exact first op ((same op).mp old)
      · exact inside op (List.mem_of_mem_drop new))
  conv_lhs => rw [← List.take_append_drop k ops, logRows_append, folded]
  rw [List.takeWhile_append_of_pos fun row member => ?_]
  · refine (congrArg _ ?_).trans (List.append_nil _)
    cases added with
    | nil => rfl
    | cons row added =>
        -- a further row exists only when there are more than `k` operations
        have bounds := numberedFrom_bounds (later.subset List.mem_cons_self)
        rw [List.length_drop] at bounds
        have all : (ops.take k).length = k := by
          rw [List.length_take] at bounds ⊢
          omega
        rw [List.takeWhile_cons_of_neg]
        rw [all] at bounds
        simp only [decide_eq_true_eq]
        omega
  · have bounds := numberedFrom_bounds (sub.subset member)
    have short := List.length_take_le k ops
    simp only [decide_eq_true_eq]
    omega

/-! ### A queue whose commits succeed -/

/-- The transaction is in the database. -/
def CommitPhase.stored : CommitPhase → Bool
  | landed => true
  | succeeded => true
  | _ => false

/-- The numbers of the operations of a commit. -/
def Commit.numbers (c : Commit) : List (Nat × Operation) := numberedFrom c.startSeq c.ops

/-- The commit may still land. -/
def CommitPhase.waiting : CommitPhase → Bool
  | queued => true
  | running => true
  | _ => false

/-- The commits around one of them. -/
theorem exists_around {commits : List Commit} {i : Nat} {c : Commit}
    (entry : commits[i]? = some c) (f : Commit → Commit) : ∃ before after,
      commits = before ++ c :: after ∧ before.length = i ∧
        commits.modify i f = before ++ f c :: after ∧ commits.eraseIdx i = before ++ after := by
  induction commits generalizing i with
  | nil => cases entry
  | cons d commits ih =>
      cases i with
      | zero =>
          obtain rfl := Option.some.inj entry
          exact ⟨[], commits, rfl, rfl, rfl, rfl⟩
      | succ i =>
          obtain ⟨before, after, split, length, modified, erased⟩ := ih entry
          refine ⟨d :: before, after, by rw [split]; rfl, by rw [List.length_cons, length], ?_, ?_⟩
          · rw [List.modify_succ_cons, modified]
            rfl
          · rw [List.eraseIdx_cons_succ, erased]
            rfl

namespace CommitQueue

/-- The finalized operations, in the order of their numbers. -/
def finalizedOps (q : CommitQueue) : List Operation := q.commits.flatMap Commit.ops

/-- A queue that started empty: the numbers are the positions. -/
structure Consecutive (q : CommitQueue) : Prop where
  numbered : ∀ i c, q.commits[i]? = some c →
    c.startSeq = ((q.commits.take i).flatMap Commit.ops).length + 1
  currentSeq : q.currentSeq = q.finalizedOps.length

/-- Besides, no commit fails: the rows are those of the commits up to some point. -/
structure Lined (q : CommitQueue) (s : Store) : Prop where
  queue : Invariant 0 (s, q)
  healthy : ∀ c ∈ q.commits, c.phase ≠ .failed
  consecutive : q.Consecutive
  landed : ∃ n, n ≤ q.commits.length ∧
    (∀ i c, q.commits[i]? = some c → (c.phase.stored = true ↔ i < n)) ∧
    s.loadFullOperationLogWithSeq = logRows ((q.commits.take n).flatMap Commit.ops)

theorem consecutive_init (documentId : String) :
    Consecutive (.resume (.empty documentId)) where
  numbered i c entry := by simp [resume] at entry
  currentSeq := rfl

theorem lined_init (documentId : String) :
    Lined (.resume (.empty documentId)) (.empty documentId) where
  queue := invariant_resume (.empty documentId) nofun
  healthy := nofun
  consecutive := consecutive_init documentId
  landed := ⟨0, le_refl _, fun i c entry => by simp [resume] at entry, rfl⟩

/-- What does not depend on the phase. -/
theorem map_setPhase {β : Type} (f : Commit → β) {phase : CommitPhase}
    (same : ∀ c : Commit, f { c with phase } = f c) (q : CommitQueue) (i : Nat) :
    (q.setPhase i phase).commits.map f = q.commits.map f := by
  refine List.ext_getElem? fun j => ?_
  rw [setPhase, List.getElem?_map, List.getElem?_map, List.getElem?_modify, Option.map_eq_map,
    Option.map_map]
  refine congrArg (fun g => Option.map g _) ?_
  funext c
  simp only [Function.comp_apply]
  split_ifs
  · exact same c
  · rfl

theorem take_setPhase (q : CommitQueue) (i n : Nat) (phase : CommitPhase) :
    ((q.setPhase i phase).commits.take n).flatMap Commit.ops =
      (q.commits.take n).flatMap Commit.ops := by
  rw [List.flatMap_def, List.flatMap_def, List.map_take, List.map_take,
    map_setPhase Commit.ops (fun _ => rfl)]

theorem length_setPhase (q : CommitQueue) (i : Nat) (phase : CommitPhase) :
    (q.setPhase i phase).commits.length = q.commits.length := by
  rw [setPhase, List.length_modify]

theorem finalizedOps_setPhase (q : CommitQueue) (i : Nat) (phase : CommitPhase) :
    (q.setPhase i phase).finalizedOps = q.finalizedOps := by
  have same := take_setPhase q i q.commits.length phase
  rwa [List.take_length, ← length_setPhase q i phase, List.take_length] at same

namespace Consecutive

variable {q : CommitQueue}

theorem setPhase (consecutive : q.Consecutive) (i : Nat) (phase : CommitPhase) (last : Nat) :
    Consecutive { q.setPhase i phase with lastCommittedSeq := last } where
  numbered j d at? := by
    obtain ⟨d₀, old, rfl⟩ := getElem?_setPhase at?
    rw [take_setPhase]
    exact consecutive.numbered j d₀ old
  currentSeq :=
    consecutive.currentSeq.trans (congrArg List.length (finalizedOps_setPhase q i phase).symm)

theorem enqueueCommit (consecutive : q.Consecutive) (origin : Nat) (ops : List Operation) :
    (q.enqueueCommit origin ops).Consecutive where
  numbered i c entry := by
    simp only [CommitQueue.enqueueCommit] at entry ⊢
    rcases Slots.of_append entry with ⟨last, rfl⟩ | ⟨old, before⟩
    · rw [last, List.take_left]
      exact congrArg (· + 1) consecutive.currentSeq
    · rw [List.take_append_of_le_length (Nat.le_of_lt old)]
      exact consecutive.numbered i c before
  currentSeq := by
    have same := consecutive.currentSeq
    simp only [CommitQueue.enqueueCommit, finalizedOps, List.flatMap_append, List.length_append] at same ⊢
    simp [same]

theorem enqueueAll (consecutive : q.Consecutive) (batches : List (Nat × List Operation)) :
    (q.enqueueAll batches).Consecutive := by
  induction batches generalizing q with
  | nil => exact consecutive
  | cons batch batches ih => exact ih (consecutive.enqueueCommit batch.1 batch.2)

end Consecutive

theorem finalizedOps_enqueueAll (q : CommitQueue) (batches : List (Nat × List Operation)) :
    (q.enqueueAll batches).finalizedOps = q.finalizedOps ++ batches.flatMap Prod.snd := by
  induction batches generalizing q with
  | nil => exact (List.append_nil _).symm
  | cons batch batches ih =>
      refine (ih (q.enqueueCommit batch.1 batch.2)).trans ?_
      rw [finalizedOps, CommitQueue.enqueueCommit, List.flatMap_append]
      simp [finalizedOps]

namespace Lined

variable {s s' : Store} {q q' : CommitQueue} {i : Nat}

/-- A commit that moves on. -/
theorem setPhase {phase : CommitPhase} {last : Nat} (lined : Lined q s)
    (queue : Invariant 0 (s', { q.setPhase i phase with lastCommittedSeq := last }))
    (healthy : phase ≠ .failed)
    (landed : ∃ n, n ≤ q.commits.length ∧
      (∀ j d, q.commits[j]? = some d → ((if i = j then phase else d.phase).stored = true ↔ j < n)) ∧
      s'.loadFullOperationLogWithSeq = logRows ((q.commits.take n).flatMap Commit.ops)) :
    Lined { q.setPhase i phase with lastCommittedSeq := last } s' where
  queue := queue
  healthy d member := by
    obtain ⟨j, d₀, old, rfl⟩ := mem_setPhase member
    by_cases here : i = j
    · simpa [here] using healthy
    · simpa [here] using lined.healthy d₀ (List.mem_of_getElem? old)
  consecutive := lined.consecutive.setPhase i phase last
  landed := by
    obtain ⟨n, short, phases, rows⟩ := landed
    refine ⟨n, by rwa [length_setPhase], fun j d at? => ?_, by rwa [take_setPhase]⟩
    obtain ⟨d₀, old, rfl⟩ := getElem?_setPhase at?
    exact phases j d₀ old

/-- A phase that says the same about the database. -/
theorem landed_setPhase {c : Commit} {phase : CommitPhase} (lined : Lined q s)
    (entry : q.commits[i]? = some c) (same : phase.stored = c.phase.stored) :
    ∃ n, n ≤ q.commits.length ∧
      (∀ j d, q.commits[j]? = some d → ((if i = j then phase else d.phase).stored = true ↔ j < n)) ∧
      s.loadFullOperationLogWithSeq = logRows ((q.commits.take n).flatMap Commit.ops) := by
  obtain ⟨n, short, phases, rows⟩ := lined.landed
  refine ⟨n, short, fun j d at? => ?_, rows⟩
  rw [← phases j d at?]
  by_cases here : i = j
  · subst here
    rw [if_pos rfl, same, Option.some.inj (entry.symm.trans at?)]
  · rw [if_neg here]

/-- When a commit lands, all earlier ones have landed and no later one. -/
theorem landed_next {c : Commit} (lined : Lined q s) (entry : q.commits[i]? = some c)
    (running : c.phase = .running) (now : Nat) :
    ∃ n, n ≤ q.commits.length ∧
      (∀ j d, q.commits[j]? = some d →
        ((if i = j then CommitPhase.landed else d.phase).stored = true ↔ j < n)) ∧
      (s.commitOperations c.startSeq c.ops now).2.loadFullOperationLogWithSeq =
        logRows ((q.commits.take n).flatMap Commit.ops) := by
  obtain ⟨n, short, phases, rows⟩ := lined.landed
  have inside := (List.getElem?_eq_some_iff.mp entry).1
  have notYet : ¬ i < n := fun less => by
    have done := (phases i c entry).mpr less
    rw [running] at done
    cases done
  have here : n = i := by
    by_contra other
    have earlier : n < i := by omega
    obtain ⟨d, at?⟩ : ∃ d, q.commits[n]? = some d :=
      ⟨_, List.getElem?_eq_getElem (earlier.trans inside)⟩
    have settled := (lined.queue.inOrder n i d c earlier at? entry).2 (by rw [running]; nofun)
    have undone : ¬ d.phase.stored = true := fun done =>
      Nat.lt_irrefl n ((phases n d at?).mp done)
    have fine := lined.healthy d (List.mem_of_getElem? at?)
    cases phase : d.phase <;> simp_all [CommitPhase.stored, CommitPhase.settled]
  subst here
  refine ⟨n + 1, inside, fun j d at? => ?_, ?_⟩
  · by_cases same : n = j
    · subst same
      simp [CommitPhase.stored]
    · rw [if_neg same, phases j d at?]
      omega
  · have nonempty := lined.queue.nonempty c (List.mem_of_getElem? entry)
    have below := lined.queue.below entry running
    have taken : (q.commits.take (n + 1)).flatMap Commit.ops =
        (q.commits.take n).flatMap Commit.ops ++ c.ops := by
      rw [List.take_add_one, entry, List.flatMap_append]
      simp
    rw [taken, logRows_append, ← rows, ← lined.consecutive.numbered n c entry, Store.commitOperations,
      if_neg nonempty]
    exact s.load_insertAll c.startSeq now c.ops below

theorem enqueueCommit (lined : Lined q s) (origin : Nat) {ops : List Operation}
    (nonempty : ops ≠ []) : Lined (q.enqueueCommit origin ops) s where
  queue := by
    have single : ∀ batch ∈ [(origin, ops)], batch.2 ≠ [] := by simpa using nonempty
    exact lined.queue.enqueueAll single
  healthy c member := by
    rcases List.mem_append.mp member with old | new
    · exact lined.healthy c old
    · rw [List.mem_singleton.mp new]
      nofun
  consecutive := lined.consecutive.enqueueCommit origin ops
  landed := by
    obtain ⟨n, short, phases, rows⟩ := lined.landed
    refine ⟨n, ?_, fun i c entry => ?_, ?_⟩
    · simp only [CommitQueue.enqueueCommit, List.length_append]
      omega
    · simp only [CommitQueue.enqueueCommit] at entry
      rcases Slots.of_append entry with ⟨last, rfl⟩ | ⟨-, before⟩
      · simp only [CommitPhase.stored, Bool.false_eq_true, false_iff]
        omega
      · exact phases i c before
    · rw [rows, CommitQueue.enqueueCommit, List.take_append_of_le_length short]

theorem enqueueAll (lined : Lined q s) {batches : List (Nat × List Operation)}
    (nonempty : ∀ batch ∈ batches, batch.2 ≠ []) : Lined (q.enqueueAll batches) s := by
  induction batches generalizing q with
  | nil => exact lined
  | cons batch batches ih =>
      exact ih (lined.enqueueCommit batch.1 (nonempty batch List.mem_cons_self))
        fun b member => nonempty b (List.mem_cons_of_mem _ member)

/-- An event that is neither a reservation nor a failure. -/
theorem step {event : Event} (lined : Lined q s)
    (moved : CommitQueue.step (s, q) event = .ok (s', q'))
    (settled : ∀ origin ops, event ≠ .enqueue origin ops) (healthy : ∀ j, event ≠ .fail j) :
    Lined q' s' ∧ q'.finalizedOps = q.finalizedOps ∧ s'.snapshots = s.snapshots := by
  have queue := lined.queue.step moved
  obtain ⟨origin, ops, rfl, -⟩ | ⟨i, c, entry, ⟨rfl, queued, tail, rfl, rfl⟩ |
    ⟨now, rfl, running, rfl, rfl⟩ | ⟨rfl, landed, rfl, rfl⟩ | ⟨rfl, -⟩⟩ := step_cases moved
  · exact absurd rfl (settled origin ops)
  · exact ⟨lined.setPhase queue nofun (lined.landed_setPhase entry (by rw [queued]; rfl)),
      finalizedOps_setPhase q i _, rfl⟩
  · obtain ⟨new, spec, -⟩ := s.commitOperations_spec c.startSeq now c.ops
      (lined.queue.nonempty c (List.mem_of_getElem? entry)) (lined.queue.below entry running)
    exact ⟨lined.setPhase queue nofun (lined.landed_next entry running now),
      finalizedOps_setPhase q i _, spec.snapshots⟩
  · exact ⟨lined.setPhase queue nofun (lined.landed_setPhase entry (by rw [landed]; rfl)),
      finalizedOps_setPhase q i _, rfl⟩
  · exact absurd rfl (healthy i)

/-- Once everything has landed, every finalized stamp has its row. -/
theorem drained (lined : Lined q s) (all : ∀ c ∈ q.commits, c.phase.stored = true) :
    s.loadFullOperationLogWithSeq = logRows q.finalizedOps := by
  obtain ⟨n, short, phases, rows⟩ := lined.landed
  have full : n = q.commits.length := by
    by_contra other
    have less : n < q.commits.length := by omega
    have entry := List.getElem?_eq_getElem less
    exact Nat.lt_irrefl n ((phases n _ entry).mp (all _ (List.mem_of_getElem? entry)))
  rw [rows, full, List.take_length]
  rfl

end Lined

end CommitQueue

end ConfluenceEditor
