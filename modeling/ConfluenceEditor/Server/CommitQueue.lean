/-
The per-document commit queue.

`enqueueCommit` chains every commit on the promise of the one before it. A commit is queued, then
runs once its predecessor has settled; its transaction lands in the store, and the promise succeeds
or fails. A connection may die after the transaction has landed, so a commit that failed may have
left its rows. `CommitQueue.Invariant` is what every reachable queue satisfies: commits run one at a
time in the order of their reservation. The committed sequence number is a durable prefix exactly as
long as no commit succeeds over the gap of a failed one (`committed_prefix_iff`).
-/

import ConfluenceEditor.Library.Run
import ConfluenceEditor.Server.OperationStore

namespace ConfluenceEditor

inductive CommitPhase where
  | queued
  | running
  | landed
  | succeeded
  | failed
  deriving DecidableEq, Repr

/-- The promise of the commit is fulfilled or rejected. -/
def CommitPhase.settled : CommitPhase → Bool
  | succeeded => true
  | failed => true
  | _ => false

/-- One call of `enqueueCommit`: the operations that took `startSeq` and the numbers after it. -/
structure Commit where
  startSeq : Nat
  ops : List Operation
  origin : Nat
  phase : CommitPhase
  deriving DecidableEq, Repr

def Commit.endSeq (c : Commit) : Nat := c.startSeq + c.ops.length - 1

structure CommitQueue where
  currentSeq : Nat
  lastCommittedSeq : Nat
  commits : List Commit
  deriving DecidableEq, Repr

namespace CommitQueue

/-- The queue after warm start. -/
def resume (s : Store) : CommitQueue := ⟨s.currentSeq, s.currentSeq, []⟩

/-- Reserve the next numbers and enqueue the commit, in one synchronous stretch. -/
def enqueueCommit (q : CommitQueue) (origin : Nat) (ops : List Operation) : CommitQueue :=
  { q with
    currentSeq := q.currentSeq + ops.length
    commits := q.commits ++ [⟨q.currentSeq + 1, ops, origin, .queued⟩] }

/-- The promise that commit `i` is chained on has settled. -/
def tailSettled (q : CommitQueue) : Nat → Bool
  | 0 => true
  | i + 1 =>
      match q.commits[i]? with
      | some c => c.phase.settled
      | none => false

def setPhase (q : CommitQueue) (i : Nat) (phase : CommitPhase) : CommitQueue :=
  { q with commits := q.commits.modify i fun c => { c with phase } }

/-- The commit function of entry `i` is called. -/
def start (q : CommitQueue) (i : Nat) : Except String CommitQueue :=
  match q.commits[i]? with
  | some c =>
      if c.phase = .queued ∧ q.tailSettled i then .ok (q.setPhase i .running)
      else .error "the commit is not next"
  | none => .error "no such commit"

/-- The transaction of entry `i` commits in the database. -/
def land (q : CommitQueue) (s : Store) (i : Nat) (committedAtMs : Nat) :
    Except String (Store × CommitQueue) :=
  match q.commits[i]? with
  | some c =>
      if c.phase = .running then
        .ok ((s.commitOperations c.startSeq c.ops committedAtMs).2, q.setPhase i .landed)
      else .error "the commit is not running"
  | none => .error "no such commit"

/-- The promise of entry `i` is fulfilled. -/
def succeed (q : CommitQueue) (i : Nat) : Except String CommitQueue :=
  match q.commits[i]? with
  | some c =>
      if c.phase = .landed then
        .ok { q.setPhase i .succeeded with lastCommittedSeq := c.endSeq }
      else .error "the commit has not landed"
  | none => .error "no such commit"

/-- The promise of entry `i` is rejected, with or without its transaction in the database. -/
def fail (q : CommitQueue) (i : Nat) : Except String CommitQueue :=
  match q.commits[i]? with
  | some c =>
      if c.phase = .running ∨ c.phase = .landed then .ok (q.setPhase i .failed)
      else .error "the commit is not running"
  | none => .error "no such commit"

/-! ### Runs of the queue -/

inductive Event where
  | enqueue (origin : Nat) (ops : List Operation)
  | start (i : Nat)
  | land (i : Nat) (committedAtMs : Nat)
  | succeed (i : Nat)
  | fail (i : Nat)
  deriving DecidableEq, Repr

/-- One event. A message without operations never reaches the queue. -/
def step (state : Store × CommitQueue) : Event → Except String (Store × CommitQueue)
  | .enqueue origin ops =>
      if ops = [] then .error "an empty message" else .ok (state.1, state.2.enqueueCommit origin ops)
  | .start i => (state.2.start i).map fun q => (state.1, q)
  | .land i committedAtMs => state.2.land state.1 i committedAtMs
  | .succeed i => (state.2.succeed i).map fun q => (state.1, q)
  | .fail i => (state.2.fail i).map fun q => (state.1, q)

/-- `op` was finalized, and broadcast, under the number `seq`. -/
def Finalized (q : CommitQueue) (seq : Nat) (op : Operation) : Prop :=
  ∃ c ∈ q.commits, ∃ k, c.ops[k]? = some op ∧ seq = c.startSeq + k

/-- Every finalized operation up to the committed sequence number has a durable row. -/
def CommittedPrefix (state : Store × CommitQueue) : Prop :=
  ∀ seq op, state.2.Finalized seq op → seq ≤ state.2.lastCommittedSeq → state.1.Durable op.id

/-- Commits run one at a time in the order of their reservation: before one starts, every earlier
one has settled, and the ranges ascend. -/
def InOrder (q : CommitQueue) : Prop :=
  ∀ (i j : Nat) (c d : Commit), i < j → q.commits[i]? = some c → q.commits[j]? = some d →
    c.endSeq < d.startSeq ∧ (d.phase ≠ .queued → c.phase.settled = true)

/-- When a commit succeeds, the operations of the failed commits are durable all the same: their
transaction had landed, or they were committed again. -/
def NoGap (state : Store × CommitQueue) : Event → Prop
  | .succeed _ => ∀ c ∈ state.2.commits, c.phase = .failed → ∀ op ∈ c.ops, state.1.Durable op.id
  | _ => True

instance (state : Store × CommitQueue) (event : Event) : Decidable (NoGap state event) :=
  match event with
  | .succeed _ => inferInstanceAs (Decidable (∀ c ∈ state.2.commits, c.phase = .failed → _))
  | .enqueue .. => inferInstanceAs (Decidable True)
  | .start _ => inferInstanceAs (Decidable True)
  | .land .. => inferInstanceAs (Decidable True)
  | .fail _ => inferInstanceAs (Decidable True)

/-- What every reachable queue satisfies; `base` is the sequence number it started from. -/
structure Invariant (base : Nat) (state : Store × CommitQueue) : Prop where
  inOrder : state.2.InOrder
  nonempty : ∀ c ∈ state.2.commits, c.ops ≠ []
  range : ∀ c ∈ state.2.commits, base < c.startSeq ∧ c.endSeq ≤ state.2.currentSeq
  start : base ≤ state.2.currentSeq
  last : state.2.lastCommittedSeq ≤ state.2.currentSeq
  rows : ∀ row ∈ state.1.operations, row.seq ≤ base ∨ ∃ c ∈ state.2.commits,
    c.phase ≠ .queued ∧ c.phase ≠ .running ∧ row.seq ≤ c.endSeq
  durable : ∀ c ∈ state.2.commits, c.phase = .landed ∨ c.phase = .succeeded →
    ∀ op ∈ c.ops, state.1.Durable op.id

/-! ### Phases -/

section Phases

variable {q : CommitQueue} {i : Nat} {phase : CommitPhase}

theorem getElem?_setPhase {j : Nat} {c : Commit}
    (entry : (q.setPhase i phase).commits[j]? = some c) :
    ∃ d, q.commits[j]? = some d ∧
      c = { d with phase := if i = j then phase else d.phase } := by
  rw [setPhase, List.getElem?_modify] at entry
  obtain ⟨d, old, rfl⟩ := Option.map_eq_some_iff.mp entry
  refine ⟨d, old, ?_⟩
  split_ifs <;> rfl

theorem mem_setPhase {c : Commit} (member : c ∈ (q.setPhase i phase).commits) :
    ∃ (j : Nat) (d : Commit), q.commits[j]? = some d ∧
      c = { d with phase := if i = j then phase else d.phase } := by
  obtain ⟨j, entry⟩ := List.getElem?_of_mem member
  obtain ⟨d, old, same⟩ := getElem?_setPhase entry
  exact ⟨j, d, old, same⟩

/-- A commit keeps its range. -/
theorem finalized_setPhase {seq : Nat} {op : Operation} :
    (q.setPhase i phase).Finalized seq op ↔ q.Finalized seq op := by
  constructor
  · rintro ⟨c, member, k, named, rfl⟩
    obtain ⟨j, d, old, rfl⟩ := mem_setPhase member
    exact ⟨d, List.mem_of_getElem? old, k, named, rfl⟩
  · rintro ⟨d, member, k, named, rfl⟩
    obtain ⟨j, old⟩ := List.getElem?_of_mem member
    refine ⟨{ d with phase := if i = j then phase else d.phase }, ?_, k, named, rfl⟩
    refine List.mem_of_getElem? (i := j) ?_
    rw [setPhase, List.getElem?_modify, old]
    split_ifs <;> rfl

/-- Changing the phase of a commit whose predecessors have settled keeps the order. -/
theorem InOrder.setPhase (ordered : q.InOrder)
    (earlier : phase ≠ .queued → ∀ j c, j < i → q.commits[j]? = some c → c.phase.settled = true)
    (later : phase.settled = true ∨ ∀ j c, i < j → q.commits[j]? = some c → c.phase = .queued) :
    (q.setPhase i phase).InOrder := by
  intro j k c d less entry entry'
  obtain ⟨c₀, old, rfl⟩ := getElem?_setPhase entry
  obtain ⟨d₀, old', rfl⟩ := getElem?_setPhase entry'
  obtain ⟨ascending, started⟩ := ordered j k c₀ d₀ less old old'
  refine ⟨ascending, fun running => ?_⟩
  by_cases first : i = j
  · -- the commit itself comes first
    subst first
    rw [if_neg (Nat.ne_of_lt less)] at running
    rcases later with settled | waiting
    · rwa [if_pos rfl]
    · exact absurd (waiting k d₀ less old') running
  · rw [if_neg first]
    by_cases second : i = k
    · subst second
      rw [if_pos rfl] at running
      exact earlier running j c₀ less old
    · rw [if_neg second] at running
      exact started running

end Phases

/-! ### One event -/

section Step

variable {base i : Nat} {s s' : Store} {q q' : CommitQueue} {event : Event}

theorem land_cases {now : Nat} (landed : q.land s i now = .ok (s', q')) :
    ∃ c, q.commits[i]? = some c ∧ c.phase = .running ∧
      s' = (s.commitOperations c.startSeq c.ops now).2 ∧ q' = q.setPhase i .landed := by
  unfold land at landed
  split at landed
  · rename_i c entry
    split_ifs at landed with running
    obtain ⟨rfl, rfl⟩ := Prod.mk.inj (Except.ok.inj landed)
    exact ⟨c, entry, running, rfl, rfl⟩
  · cases landed

/-- Which entry an event is about, in which phase it was, and what became of it. -/
theorem step_cases (moved : step (s, q) event = .ok (s', q')) :
    (∃ origin ops, event = .enqueue origin ops ∧ ops ≠ [] ∧ s' = s ∧
      q' = q.enqueueCommit origin ops) ∨
    ∃ i c, q.commits[i]? = some c ∧
      ((event = .start i ∧ c.phase = .queued ∧ q.tailSettled i = true ∧ s' = s ∧
          q' = q.setPhase i .running) ∨
        (∃ now, event = .land i now ∧ c.phase = .running ∧
          s' = (s.commitOperations c.startSeq c.ops now).2 ∧ q' = q.setPhase i .landed) ∨
        (event = .succeed i ∧ c.phase = .landed ∧ s' = s ∧
          q' = { q.setPhase i .succeeded with lastCommittedSeq := c.endSeq }) ∨
        (event = .fail i ∧ (c.phase = .running ∨ c.phase = .landed) ∧ s' = s ∧
          q' = q.setPhase i .failed)) := by
  cases event with
  | enqueue origin ops =>
      simp only [step] at moved
      split_ifs at moved with nothing
      obtain ⟨rfl, rfl⟩ := Prod.mk.inj (Except.ok.inj moved)
      exact Or.inl ⟨origin, ops, rfl, nothing, rfl, rfl⟩
  | start i =>
      right
      simp only [step, start] at moved
      split at moved
      · rename_i c entry
        split_ifs at moved with next
        · obtain ⟨rfl, rfl⟩ := Prod.mk.inj (Except.ok.inj moved)
          exact ⟨i, c, entry, Or.inl ⟨rfl, next.1, next.2, rfl, rfl⟩⟩
        · cases moved
      · cases moved
  | land i now =>
      obtain ⟨c, entry, running, rfl, rfl⟩ := land_cases moved
      exact Or.inr ⟨i, c, entry, Or.inr (Or.inl ⟨now, rfl, running, rfl, rfl⟩)⟩
  | succeed i =>
      right
      simp only [step, succeed] at moved
      split at moved
      · rename_i c entry
        split_ifs at moved with landed
        · obtain ⟨rfl, rfl⟩ := Prod.mk.inj (Except.ok.inj moved)
          exact ⟨i, c, entry, Or.inr (Or.inr (Or.inl ⟨rfl, landed, rfl, rfl⟩))⟩
        · cases moved
      · cases moved
  | fail i =>
      right
      simp only [step, fail] at moved
      split at moved
      · rename_i c entry
        split_ifs at moved with started
        · obtain ⟨rfl, rfl⟩ := Prod.mk.inj (Except.ok.inj moved)
          exact ⟨i, c, entry, Or.inr (Or.inr (Or.inr ⟨rfl, started, rfl, rfl⟩))⟩
        · cases moved
      · cases moved

/-- Everything before the commit that is up next has settled. -/
theorem InOrder.settled_of_tailSettled (ordered : q.InOrder) (tail : q.tailSettled i = true)
    {j : Nat} {c : Commit} (earlier : j < i) (entry : q.commits[j]? = some c) :
    c.phase.settled = true := by
  cases i with
  | zero => omega
  | succ i =>
      simp only [tailSettled] at tail
      split at tail
      · rename_i d last
        rcases Nat.lt_succ_iff_lt_or_eq.mp earlier with less | rfl
        · refine (ordered j i c d less entry last).2 fun queued => ?_
          rw [queued] at tail
          cases tail
        · rw [entry] at last
          rwa [Option.some.inj last]
      · cases tail

/-- Everything after a commit that has not settled is still queued. -/
theorem InOrder.queued_of_unsettled (ordered : q.InOrder) {c : Commit}
    (entry : q.commits[i]? = some c) (unsettled : c.phase.settled = false) {j : Nat} {d : Commit}
    (later : i < j) (entry' : q.commits[j]? = some d) : d.phase = .queued := by
  by_contra started
  rw [(ordered i j c d later entry entry').2 started] at unsettled
  cases unsettled

theorem invariant_resume (s : Store) (below : ∀ row ∈ s.operations, row.seq ≤ s.currentSeq) :
    Invariant s.currentSeq (s, resume s) where
  inOrder i j c d _ entry := by simp [resume] at entry
  nonempty c member := by simp [resume] at member
  range c member := by simp [resume] at member
  start := le_refl _
  last := le_refl _
  rows row member := Or.inl (below row member)
  durable c member := by simp [resume] at member

/-- Of the store, only the rows matter. -/
theorem Invariant.congr_store (invariant : Invariant base (s, q))
    (same : s'.operations = s.operations) : Invariant base (s', q) := by
  refine { invariant with
    rows := fun row member => invariant.rows row (by rwa [← same])
    durable := fun c member phase op inOps => ?_ }
  obtain ⟨row, inside, named⟩ := invariant.durable c member phase op inOps
  exact ⟨row, by rwa [same], named⟩

/-- A commit that moves on, with the rows it may have added. -/
theorem Invariant.setPhase {c : Commit} {phase : CommitPhase} (last : Nat)
    (invariant : Invariant base (s, q)) (entry : q.commits[i]? = some c)
    (ordered : (q.setPhase i phase).InOrder) (mono : ∀ stamp, s.Durable stamp → s'.Durable stamp)
    (rows : ∀ row ∈ s'.operations, row ∈ s.operations ∨
      phase ≠ .queued ∧ phase ≠ .running ∧ row.seq ≤ c.endSeq)
    (forward : phase = .queued ∨ phase = .running → c.phase = .queued ∨ c.phase = .running)
    (durable : phase = .landed ∨ phase = .succeeded → ∀ op ∈ c.ops, s'.Durable op.id)
    (bound : last ≤ q.currentSeq) :
    Invariant base (s', { q.setPhase i phase with lastCommittedSeq := last }) := by
  have unchanged : ∀ d ∈ (q.setPhase i phase).commits, ∃ d₀ ∈ q.commits,
      d.startSeq = d₀.startSeq ∧ d.ops = d₀.ops := by
    intro d member
    obtain ⟨j, d₀, old, rfl⟩ := mem_setPhase member
    exact ⟨d₀, List.mem_of_getElem? old, rfl, rfl⟩
  refine ⟨ordered, fun d member => ?_, fun d member => ?_, invariant.start, bound,
    fun row member => ?_, fun d member done op inOps => ?_⟩
  · obtain ⟨d₀, old, -, sameOps⟩ := unchanged d member
    rw [sameOps]
    exact invariant.nonempty d₀ old
  · obtain ⟨d₀, old, sameSeq, sameOps⟩ := unchanged d member
    rw [Commit.endSeq, sameSeq, sameOps]
    exact invariant.range d₀ old
  · have self : (phase ≠ .queued ∧ phase ≠ .running ∧ row.seq ≤ c.endSeq) → row.seq ≤ base ∨
        ∃ d ∈ (q.setPhase i phase).commits, d.phase ≠ .queued ∧ d.phase ≠ .running ∧
          row.seq ≤ d.endSeq := by
      rintro ⟨notQueued, notRunning, bound⟩
      refine Or.inr ⟨{ c with phase }, List.mem_of_getElem? (i := i) ?_, notQueued, notRunning,
        bound⟩
      rw [CommitQueue.setPhase, List.getElem?_modify_eq, entry]
      rfl
    rcases rows row member with old | new
    · rcases invariant.rows row old with small | ⟨d, inside, notQueued, notRunning, bound⟩
      · exact Or.inl small
      · obtain ⟨j, at?⟩ := List.getElem?_of_mem inside
        by_cases same : i = j
        · subst same
          obtain rfl := Option.some.inj (entry.symm.trans at?)
          refine self ⟨fun queued => ?_, fun running => ?_, bound⟩
          · exact (forward (Or.inl queued)).elim notQueued notRunning
          · exact (forward (Or.inr running)).elim notQueued notRunning
        · refine Or.inr ⟨d, List.mem_of_getElem? (i := j) ?_, notQueued, notRunning, bound⟩
          rw [CommitQueue.setPhase, List.getElem?_modify_ne _ _ same, at?]
    · exact self new
  · obtain ⟨j, d₀, old, rfl⟩ := mem_setPhase member
    by_cases same : i = j
    · subst same
      obtain rfl := Option.some.inj (entry.symm.trans old)
      exact durable (by simpa using done) op inOps
    · rw [if_neg same] at done
      exact mono _ (invariant.durable d₀ (List.mem_of_getElem? old) done op inOps)

/-- The rows that are there when a commit runs lie below its range. -/
theorem Invariant.below {c : Commit} (invariant : Invariant base (s, q))
    (entry : q.commits[i]? = some c) (running : c.phase = .running) :
    ∀ row ∈ s.operations, row.seq < c.startSeq := by
  intro row member
  rcases invariant.rows row member with small | ⟨d, inside, notQueued, notRunning, bound⟩
  · exact lt_of_le_of_lt small (invariant.range c (List.mem_of_getElem? entry)).1
  · obtain ⟨j, at?⟩ := List.getElem?_of_mem inside
    rcases lt_trichotomy j i with earlier | rfl | later
    · exact lt_of_le_of_lt bound (invariant.inOrder j i d c earlier at? entry).1
    · obtain rfl := Option.some.inj (entry.symm.trans at?)
      exact absurd running notRunning
    · exact absurd (invariant.inOrder.queued_of_unsettled entry (by rw [running]; rfl) later at?)
        notQueued

theorem Invariant.step (invariant : Invariant base (s, q))
    (moved : step (s, q) event = .ok (s', q')) : Invariant base (s', q') := by
  obtain ⟨origin, ops, rfl, nonempty, rfl, rfl⟩ | ⟨i, c, entry, ⟨rfl, queued, tail, rfl, rfl⟩ |
    ⟨now, rfl, running, rfl, rfl⟩ | ⟨rfl, landed, rfl, rfl⟩ | ⟨rfl, started, rfl, rfl⟩⟩ :=
    step_cases moved
  · have length : 0 < ops.length := List.length_pos_iff.mpr nonempty
    have cases' : ∀ c ∈ (q.enqueueCommit origin ops).commits, c ∈ q.commits ∨
        c = ⟨q.currentSeq + 1, ops, origin, .queued⟩ := fun c member => by
      simpa [enqueueCommit] using member
    refine ⟨fun j k c d less at? at?' => ?_, fun c member => ?_, fun c member => ?_,
      le_trans invariant.start (Nat.le_add_right ..), le_trans invariant.last
      (Nat.le_add_right ..), fun row member => ?_, fun c member done => ?_⟩
    · simp only [enqueueCommit, List.getElem?_append] at at? at?'
      split_ifs at at?' with inside
      · rw [if_pos (less.trans inside)] at at?
        exact invariant.inOrder j k c d less at? at?'
      · have last : k - q.commits.length = 0 := by
          by_contra more
          rw [List.getElem?_eq_none (by simp only [List.length_singleton]; omega)] at at?'
          cases at?'
        rw [last] at at?'
        obtain rfl := Option.some.inj at?'
        rw [if_pos (by omega)] at at?
        refine ⟨?_, fun started => absurd rfl started⟩
        exact Nat.lt_succ_of_le (invariant.range c (List.mem_of_getElem? at?)).2
    · rcases cases' c member with old | rfl
      · exact invariant.nonempty c old
      · exact nonempty
    · rcases cases' c member with old | rfl
      · obtain ⟨lower, upper⟩ := invariant.range c old
        exact ⟨lower, le_trans upper (Nat.le_add_right ..)⟩
      · have start : base ≤ q.currentSeq := invariant.start
        simp only [Commit.endSeq, enqueueCommit]
        omega
    · rcases invariant.rows row member with small | ⟨c, inside, rest⟩
      · exact Or.inl small
      · exact Or.inr ⟨c, by simp [enqueueCommit, inside], rest⟩
    · rcases cases' c member with old | rfl
      · exact invariant.durable c old done
      · rcases done with landed | succeeded <;> contradiction
  · exact invariant.setPhase q.lastCommittedSeq entry
      (invariant.inOrder.setPhase
        (fun _ j d earlier at? => invariant.inOrder.settled_of_tailSettled tail earlier at?)
        (Or.inr fun j d later at? =>
          invariant.inOrder.queued_of_unsettled entry (by rw [queued]; rfl) later at?))
      (fun _ durable => durable) (fun _ member => Or.inl member) (fun _ => Or.inl queued)
      (fun done => by rcases done with landed | succeeded <;> contradiction) invariant.last
  · have nonempty := invariant.nonempty c (List.mem_of_getElem? entry)
    obtain ⟨new, spec, -⟩ := s.commitOperations_spec c.startSeq now c.ops nonempty
      (invariant.below entry running)
    refine invariant.setPhase q.lastCommittedSeq entry
      (invariant.inOrder.setPhase
        (fun _ j d earlier at? => (invariant.inOrder j i d c earlier at? entry).2
          (by rw [running]; decide))
        (Or.inr fun j d later at? =>
          invariant.inOrder.queued_of_unsettled entry (by rw [running]; rfl) later at?))
      spec.durable_mono (fun row member => ?_) (fun back => ?_) (fun _ => spec.durable)
      invariant.last
    · rw [spec.operations] at member
      rcases List.mem_append.mp member with old | added
      · exact Or.inl old
      · obtain ⟨k, named, place⟩ := spec.place row added
        have inside := (List.getElem?_eq_some_iff.mp named).1
        refine Or.inr ⟨by decide, by decide, ?_⟩
        rw [place, Commit.endSeq]
        omega
    · rcases back with queued | running <;> contradiction
  · exact invariant.setPhase c.endSeq entry
      (invariant.inOrder.setPhase
        (fun _ j d earlier at? => (invariant.inOrder j i d c earlier at? entry).2
          (by rw [landed]; decide)) (Or.inl rfl))
      (fun _ durable => durable) (fun _ member => Or.inl member)
      (fun back => by rcases back with queued | running <;> contradiction)
      (fun _ => invariant.durable c (List.mem_of_getElem? entry) (Or.inl landed))
      (invariant.range c (List.mem_of_getElem? entry)).2
  · exact invariant.setPhase q.lastCommittedSeq entry
      (invariant.inOrder.setPhase
        (fun _ j d earlier at? => (invariant.inOrder j i d c earlier at? entry).2
          (by rcases started with running | landed <;> simp [*])) (Or.inl rfl))
      (fun _ durable => durable) (fun _ member => Or.inl member)
      (fun back => by rcases back with queued | running <;> contradiction)
      (fun done => by rcases done with landed | succeeded <;> contradiction) invariant.last

/-- Apart from an enqueue, no event changes what is reserved. -/
theorem reserved_of_step (moved : step (s, q) event = .ok (s', q'))
    (settled : ∀ origin ops, event ≠ .enqueue origin ops) :
    q'.currentSeq = q.currentSeq ∧ ∀ seq op, q'.Finalized seq op → q.Finalized seq op := by
  obtain ⟨origin, ops, rfl, -⟩ | ⟨i, c, -, ⟨-, -, -, -, rfl⟩ | ⟨-, -, -, -, rfl⟩ | ⟨-, -, -, rfl⟩ |
    ⟨-, -, -, rfl⟩⟩ := step_cases moved
  · exact absurd rfl (settled origin ops)
  all_goals exact ⟨rfl, fun seq op finalized => finalized_setPhase.mp finalized⟩

/-- Several commits, enqueued one after another. -/
def enqueueAll (q : CommitQueue) (batches : List (Nat × List Operation)) : CommitQueue :=
  batches.foldl (fun q batch => q.enqueueCommit batch.1 batch.2) q

theorem Invariant.enqueueAll (invariant : Invariant base (s, q))
    {batches : List (Nat × List Operation)} (nonempty : ∀ batch ∈ batches, batch.2 ≠ []) :
    Invariant base (s, q.enqueueAll batches) := by
  induction batches generalizing q with
  | nil => exact invariant
  | cons batch batches ih =>
      have event : CommitQueue.step (s, q) (.enqueue batch.1 batch.2) =
          .ok (s, q.enqueueCommit batch.1 batch.2) := by
        rw [CommitQueue.step, if_neg (nonempty batch List.mem_cons_self)]
      exact ih (invariant.step event) fun b member => nonempty b (List.mem_cons_of_mem _ member)

/-- New reservations lie above the old ones. -/
theorem finalized_enqueueAll {batches : List (Nat × List Operation)} {seq : Nat} {op : Operation}
    (finalized : (q.enqueueAll batches).Finalized seq op) :
    q.Finalized seq op ∨ q.currentSeq < seq ∧ ∃ batch ∈ batches, op ∈ batch.2 := by
  induction batches generalizing q with
  | nil => exact Or.inl finalized
  | cons batch batches ih =>
      rcases ih finalized with ⟨c, member, k, named, rfl⟩ | ⟨above, b, inside, own⟩
      · rcases List.mem_append.mp member with old | new
        · exact Or.inl ⟨c, old, k, named, rfl⟩
        · obtain rfl := List.mem_singleton.mp new
          exact Or.inr ⟨by simp only; omega, batch, List.mem_cons_self, List.mem_of_getElem? named⟩
      · refine Or.inr ⟨lt_of_le_of_lt ?_ above, b, List.mem_cons_of_mem _ inside, own⟩
        exact Nat.le_add_right ..

theorem currentSeq_enqueueAll (q : CommitQueue) (batches : List (Nat × List Operation)) :
    q.currentSeq ≤ (q.enqueueAll batches).currentSeq := by
  induction batches generalizing q with
  | nil => exact le_refl _
  | cons batch batches ih => exact le_trans (Nat.le_add_right ..) (ih (q.enqueueCommit ..))

/-- One event keeps the committed sequence number a durable prefix exactly when it meets `NoGap`. -/
theorem committedPrefix_step (invariant : Invariant base (s, q)) (holds : CommittedPrefix (s, q))
    (moved : step (s, q) event = .ok (s', q')) :
    CommittedPrefix (s', q') ↔ NoGap (s, q) event := by
  obtain ⟨origin, ops, rfl, nonempty, rfl, rfl⟩ | ⟨i, c, entry, ⟨rfl, queued, tail, rfl, rfl⟩ |
    ⟨now, rfl, running, rfl, rfl⟩ | ⟨rfl, landed, rfl, rfl⟩ | ⟨rfl, started, rfl, rfl⟩⟩ :=
    step_cases moved
  · -- new numbers lie above the committed one
    refine iff_of_true (fun seq op finalized bound => ?_) trivial
    obtain ⟨c, member, k, named, rfl⟩ := finalized
    rcases List.mem_append.mp member with old | new
    · exact holds _ op ⟨c, old, k, named, rfl⟩ bound
    · obtain rfl := List.mem_singleton.mp new
      have last : q.lastCommittedSeq ≤ q.currentSeq := invariant.last
      simp only [enqueueCommit] at bound
      omega
  · refine iff_of_true (fun seq op finalized => ?_) trivial
    exact holds seq op (finalized_setPhase.mp finalized)
  · obtain ⟨new, spec, -⟩ := s.commitOperations_spec c.startSeq now c.ops
      (invariant.nonempty c (List.mem_of_getElem? entry)) (invariant.below entry running)
    refine iff_of_true (fun seq op finalized bound => ?_) trivial
    exact spec.durable_mono _ (holds seq op (finalized_setPhase.mp finalized) bound)
  · constructor
    · intro extended d member failed op inOps
      -- a failed commit lies before the one that succeeds
      obtain ⟨j, at?⟩ := List.getElem?_of_mem member
      obtain ⟨k, named⟩ := List.getElem?_of_mem inOps
      have inside := (List.getElem?_eq_some_iff.mp named).1
      have earlier : d.endSeq < c.startSeq := by
        rcases lt_trichotomy j i with less | rfl | later
        · exact (invariant.inOrder j i d c less at? entry).1
        · obtain rfl := Option.some.inj (entry.symm.trans at?)
          rw [landed] at failed
          cases failed
        · rw [invariant.inOrder.queued_of_unsettled entry (by rw [landed]; rfl) later at?] at failed
          cases failed
      refine extended (d.startSeq + k) op (finalized_setPhase.mpr ⟨d, member, k, named, rfl⟩) ?_
      simp only [Commit.endSeq] at earlier ⊢
      omega
    · intro noGap seq op finalized bound
      obtain ⟨d, member, k, named, rfl⟩ := finalized_setPhase.mp finalized
      have inOps := List.mem_of_getElem? named
      obtain ⟨j, at?⟩ := List.getElem?_of_mem member
      rcases lt_trichotomy j i with less | rfl | later
      · -- an earlier commit has succeeded or failed
        have settled := (invariant.inOrder j i d c less at? entry).2 (by rw [landed]; decide)
        cases phase : d.phase with
        | succeeded => exact invariant.durable d member (Or.inr phase) op inOps
        | failed => exact noGap d member phase op inOps
        | queued => rw [phase] at settled; cases settled
        | running => rw [phase] at settled; cases settled
        | landed => rw [phase] at settled; cases settled
      · obtain rfl := Option.some.inj (entry.symm.trans at?)
        exact invariant.durable c member (Or.inl landed) op inOps
      · have above := (invariant.inOrder i j c d later entry at?).1
        simp only at bound
        omega
  · refine iff_of_true (fun seq op finalized => ?_) trivial
    exact holds seq op (finalized_setPhase.mp finalized)

end Step

/-- For every sequence of commits with every pattern of successes, failures and completion times:
commits run one at a time in the order of their reservation, and the committed sequence number is a
durable prefix at every moment if and only if no commit succeeds while an operation of a failed one
has no durable row. -/
theorem committed_prefix_iff (s : Store) (numbered : ∀ row ∈ s.operations, row.seq ≤ s.currentSeq)
    (events : List Event) :
    Run.Always step (fun state => state.2.InOrder) (s, resume s) events ∧
      (Run.Always step CommittedPrefix (s, resume s) events ↔
        Run.Each step NoGap (s, resume s) events) := by
  have start := invariant_resume s numbered
  have all : Run.Always step (Invariant s.currentSeq) (s, resume s) events :=
    Run.always_of_each (C := fun _ _ => True) (fun _ _ _ holds _ moved => holds.step moved) start
      (Run.each_true events)
  refine ⟨all.imp fun _ invariant => invariant.inOrder, ?_⟩
  refine Run.always_iff_each (I := Invariant s.currentSeq) (fun _ _ _ holds moved =>
    holds.step moved) (fun _ _ _ invariant holds moved =>
    committedPrefix_step invariant holds moved) start ?_ events
  intro seq op finalized
  obtain ⟨c, member, -⟩ := finalized
  cases member

/-- One character each by two sessions. -/
def typedFirst : Operation := .insert ⟨⟨1, 1⟩, 97, none, .R, false⟩

def typedSecond : Operation := .insert ⟨⟨1, 2⟩, 98, none, .R, false⟩

/-- A new document. -/
def created : Store := Store.empty "document"

/-- The commit of the first character fails and the commit of the second one succeeds. -/
def overtaken : List Event :=
  [.enqueue 1 [typedFirst], .enqueue 2 [typedSecond], .start 0, .fail 0, .start 1, .land 1 0,
    .succeed 1]

/-- Both commits succeed. -/
def successive : List Event :=
  [.enqueue 1 [typedFirst], .enqueue 2 [typedSecond], .start 0, .land 0 0, .succeed 0, .start 1, .land 1 0,
    .succeed 1]

theorem committed_prefix_successive :
    ∃ state, Run.run step (created, resume created) successive = .ok state ∧
      state.2.lastCommittedSeq = 2 ∧ CommittedPrefix state := by
  obtain ⟨state, ran, last⟩ := Run.exists_of_ends
    (Run.run step (created, resume created) successive)
    (fun state => decide (state.2.lastCommittedSeq = 2)) (by decide)
  refine ⟨state, ran, of_decide_eq_true last, ?_⟩
  exact ((committed_prefix_iff created (fun _ member => by cases member) successive).2.mpr
    (by decide)).last ran

/-- The committed sequence number passes over the failed commit. -/
theorem committed_prefix_overtaken : ¬ ∀ events : List Event,
    Run.Always step CommittedPrefix (created, resume created) events := by
  intro all
  obtain ⟨state, ran, checked⟩ := Run.exists_of_ends
    (Run.run step (created, resume created) overtaken)
    (fun state => decide (state.2.lastCommittedSeq = 2 ∧ ¬ state.1.Durable typedFirst.id ∧
      state.2.commits[0]? = some (Commit.mk 1 [typedFirst] 1 .failed))) (by decide)
  obtain ⟨last, lost, entry⟩ := of_decide_eq_true checked
  refine lost ((all overtaken).last ran 1 typedFirst
    ⟨_, List.mem_of_getElem? entry, 0, rfl, rfl⟩ ?_)
  rw [last]
  decide

end CommitQueue

end ConfluenceEditor
