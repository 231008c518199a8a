/-
The numbers of operations, at the server, at the peers and in the log.

A `Journal` is a room whose server may crash and start again from its store. Every frame carries the
numbers of one commit, in order; what is acknowledged and what is stored under a stamp that was not
finalized before has the number that the peers count to (`NumbersAgree`). One coordinator never hands
out a number twice. A restart resumes behind the last stored number, so a number that was broadcast
but not stored is handed out again (`number_reused`).
-/

import ConfluenceEditor.Client.Handshake
import ConfluenceEditor.Server.CausalLog
import ConfluenceEditor.Server.ExactlyOnce
import Mathlib.Data.List.Flatten

namespace ConfluenceEditor

open Coordinator

/-- A room, with the commits of the coordinators that it had before its restarts. -/
structure Journal where
  room : Room
  past : List (List Commit)

inductive JournalEvent where
  | room (event : RoomEvent)
  | restart
  deriving DecidableEq, Repr

/-- The numbers that a peer counts to: the number of the frame plus the index in the expanded run. -/
def Relay.numbers (f : Relay) : List (Nat × Operation) := numberedFrom f.seq f.ops

namespace Journal

def init (documentId : String) : Journal := ⟨Room.init documentId, []⟩

/-- The commits of each coordinator. -/
def lives (j : Journal) : List (List Commit) := j.past ++ [j.room.queue.commits]

/-- All commits, in the order in which their operations were finalized. -/
def commits (j : Journal) : List Commit := j.lives.flatten

/-- The server starts again; its connections are gone. -/
def restarted (r : Room) (coordinator : Coordinator) : Room :=
  { r with
    state := ⟨coordinator, fun _ => none⟩
    sessions := []
    left := r.left ++ r.sessions.map Prod.fst }

def step (config : OfflineWindowConfig) (j : Journal) : JournalEvent → Except String Journal
  | .room event => do
      let room ← j.room.step config event
      .ok { j with room }
  | .restart => do
      let coordinator ← warmStart j.room.store
      .ok ⟨restarted j.room coordinator, j.lives⟩

/-- The number of an operation is the same wherever it is written down. -/
structure NumbersAgree (j : Journal) : Prop where
  /-- A frame carries the numbers of a commit, and peers get no other frames. -/
  frames : j.room.relays.map (fun f => (f.origin, f.numbers)) =
    j.commits.map fun c => (c.origin, c.numbers)
  peers : ∀ session, ∀ f ∈ j.room.outbox session, f ∈ j.room.relays
  /-- The origin is told these numbers. -/
  acked : ∀ ack ∈ j.room.acked, ∃ c ∈ j.commits, c.phase = .succeeded ∧
    ∃ row ∈ c.numbers, ack = (c.origin, row.1, row.2.id)
  /-- A stamp that was not finalized before is stored under this number and no other. -/
  stored : ∀ before c after, j.commits = before ++ c :: after → c.phase.stored = true →
    ∀ first row rest, c.numbers = first ++ row :: rest →
    (∀ x ∈ before.flatMap Commit.numbers ++ first, x.2.id ≠ row.2.id) →
    (j.room.store.loadFullOperationLogWithSeq.filter fun r => r.2.id = row.2.id) = [row]
  /-- One coordinator numbers upwards, and every coordinator above what was stored before. -/
  ascending : ∀ life ∈ j.lives, (life.flatMap Commit.numbers).Pairwise fun x y => x.1 < y.1
  across : ∀ before c after, j.commits = before ++ c :: after → c.phase.stored = true →
    ∀ x ∈ c.numbers, ∀ y ∈ after.flatMap Commit.numbers, x.1 < y.1

/-! ### The log of the commits that landed -/

/-- The row of a stamp is the first one that was offered. -/
theorem filter_foldl_insertRow (id : Identifier) (rows new : List (Nat × Operation))
    (one : (rows.filter fun r => r.2.id = id).length ≤ 1) :
    (new.foldl insertRow rows).filter (fun r => r.2.id = id) =
      ((rows ++ new).filter fun r => r.2.id = id).take 1 := by
  induction new generalizing rows with
  | nil =>
      rw [List.append_nil, List.take_of_length_le one]
      rfl
  | cons row new ih =>
      rw [List.foldl_cons, insertRow]
      by_cases taken : (rows.any fun r => r.2.id = row.2.id) = true
      · rw [if_pos taken, ih rows one, List.filter_append, List.filter_append]
        by_cases named : row.2.id = id
        · -- the stamp has its row already
          obtain ⟨r, member, same⟩ := List.any_eq_true.mp taken
          have found : r ∈ rows.filter fun r => r.2.id = id :=
            List.mem_filter.mpr ⟨member, by simpa [named] using same⟩
          have full : 1 ≤ (rows.filter fun r => r.2.id = id).length := List.length_pos_of_mem found
          rw [List.take_append_of_le_length full, List.take_append_of_le_length full]
        · rw [List.filter_cons_of_neg (by simpa using named)]
      · rw [if_neg taken, ih (rows ++ [row]) ?_, List.append_assoc, List.singleton_append]
        by_cases named : row.2.id = id
        · have none : (rows.filter fun r => r.2.id = id) = [] :=
            List.filter_eq_nil_iff.mpr fun r member same => taken
              (List.any_eq_true.mpr ⟨r, member, by simpa [named] using same⟩)
          rw [List.filter_append, none, List.nil_append]
          exact List.length_filter_le _ [row]
        · rw [List.filter_append, List.filter_cons_of_neg (by simpa using named)]
          simpa using one

/-- What keeps the numbers of a journal in agreement. `base` is the number that the coordinator
resumed behind, `landed` are the numbers of the commits whose transactions are in the database. -/
structure Kept (j : Journal) (base : Nat) (landed : List (List (Nat × Operation))) : Prop where
  queue : CommitQueue.Invariant base (j.room.store, j.room.queue)
  numbered : ∀ row ∈ j.room.store.operations, row.seq ≤ j.room.store.currentSeq
  frames : j.room.relays.map (fun f => (f.origin, f.numbers)) =
    j.commits.map fun c => (c.origin, c.numbers)
  peers : ∀ session, ∀ f ∈ j.room.outbox session, f ∈ j.room.relays
  acked : ∀ ack ∈ j.room.acked, ∃ c ∈ j.commits, c.phase = .succeeded ∧
    ∃ row ∈ c.numbers, ack = (c.origin, row.1, row.2.id)
  sub : landed.Sublist ((j.commits.filter fun c => !c.phase.waiting).map Commit.numbers)
  stored : ((j.commits.filter fun c => c.phase.stored).map Commit.numbers).Sublist landed
  rows : j.room.store.loadFullOperationLogWithSeq = landed.flatten.foldl insertRow []
  ascending : ∀ life ∈ j.past, (life.flatMap Commit.numbers).Pairwise fun x y => x.1 < y.1
  reached : ∀ c ∈ j.commits, c.phase.stored = true → c.endSeq ≤ j.room.store.currentSeq
  resumed : ∀ c ∈ j.past.flatten, c.phase.stored = true → c.endSeq ≤ base
  across : ∀ before c after, j.past.flatten = before ++ c :: after → c.phase.stored = true →
    ∀ x ∈ c.numbers, ∀ y ∈ after.flatMap Commit.numbers, x.1 < y.1

theorem numbers_bounds {c : Commit} {x : Nat × Operation} (member : x ∈ c.numbers) :
    c.startSeq ≤ x.1 ∧ x.1 ≤ c.endSeq := by
  obtain ⟨low, high⟩ := numberedFrom_bounds member
  refine ⟨low, ?_⟩
  rw [Commit.endSeq]
  omega

theorem pairwise_numberedFrom (first : Nat) (ops : List Operation) :
    (numberedFrom first ops).Pairwise fun x y => x.1 < y.1 := by
  have numbers : (numberedFrom first ops).map Prod.fst = List.range' first ops.length := by
    rw [numberedFrom, List.map_map]
    exact List.zipIdx_map_snd first ops
  have sorted : ((numberedFrom first ops).map Prod.fst).Pairwise (· < ·) := by
    rw [numbers]
    exact List.pairwise_lt_range'
  exact List.pairwise_map.mp sorted

/-- The commits of one coordinator number upwards. -/
theorem ascending_commits {q : CommitQueue} (ordered : q.InOrder) :
    (q.commits.flatMap Commit.numbers).Pairwise fun x y => x.1 < y.1 := by
  rw [List.pairwise_flatMap]
  refine ⟨fun c _ => pairwise_numberedFrom _ _, ?_⟩
  rw [List.pairwise_iff_getElem]
  intro i k inside inside' less x first y second
  have apart := (ordered i k _ _ less (List.getElem?_eq_getElem inside)
    (List.getElem?_eq_getElem inside')).1
  have upper := (numbers_bounds first).2
  have lower := (numbers_bounds second).1
  omega

namespace Kept

variable {j j' : Journal} {base : Nat} {landed : List (List (Nat × Operation))}

/-- Stored numbers lie below everything that was finalized later. -/
theorem across_commits (kept : j.Kept base landed) {before after : List Commit} {c : Commit}
    (split : j.commits = before ++ c :: after) (stored : c.phase.stored = true) :
    ∀ x ∈ c.numbers, ∀ y ∈ after.flatMap Commit.numbers, x.1 < y.1 := by
  intro x first y second
  have whole : j.past.flatten ++ j.room.queue.commits = before ++ c :: after := by
    rw [← split, commits, lives, List.flatten_append, List.flatten_singleton]
  rcases List.append_eq_append_iff.mp whole with ⟨between, rfl, here⟩ | ⟨between, old, here⟩
  · -- both are commits of this coordinator
    have ordered := ascending_commits kept.queue.inOrder
    rw [here, List.flatMap_append, List.flatMap_cons] at ordered
    exact (List.pairwise_append.mp (List.pairwise_append.mp ordered).2.1).2.2 x first y second
  · cases between with
    | nil =>
        have ordered := ascending_commits kept.queue.inOrder
        rw [← List.nil_append j.room.queue.commits, ← here, List.flatMap_cons] at ordered
        exact (List.pairwise_append.mp ordered).2.2 x first y second
    | cons c' later =>
        obtain ⟨rfl, rfl⟩ := List.cons.inj here
        change y ∈ (later ++ j.room.queue.commits).flatMap Commit.numbers at second
        rw [List.flatMap_append] at second
        rcases List.mem_append.mp second with earlier | now
        · exact kept.across before c later old stored x first y earlier
        · obtain ⟨d, member, inside⟩ := List.mem_flatMap.mp now
          have low := kept.resumed c (by rw [old]; simp) stored
          have above := (kept.queue.range d member).1
          have upper := (numbers_bounds first).2
          have lower := (numbers_bounds inside).1
          omega

theorem agree (kept : j.Kept base landed) : j.NumbersAgree where
  frames := kept.frames
  peers := kept.peers
  acked := kept.acked
  stored before c after split stored first row rest numbers fresh := by
    set p : Nat × Operation → Bool := fun r => decide (r.2.id = row.2.id) with stamp
    have none : (before.flatMap Commit.numbers ++ first).filter p = [] :=
      List.filter_eq_nil_iff.mpr fun x member same => fresh x member (of_decide_eq_true same)
    have all : (j.commits.flatMap Commit.numbers).filter p =
        row :: (rest ++ after.flatMap Commit.numbers).filter p := by
      rw [split, List.flatMap_append, List.flatMap_cons, numbers, List.append_assoc,
        ← List.append_assoc, List.filter_append, none, List.nil_append, List.cons_append,
        List.filter_cons_of_pos (by simp [stamp])]
    -- the row is not numbered again later
    have once : row ∉ (rest ++ after.flatMap Commit.numbers).filter p := by
      intro again
      rcases List.mem_append.mp (List.mem_filter.mp again).1 with here | later
      · have ordered := pairwise_numberedFrom c.startSeq c.ops
        rw [← Commit.numbers, numbers] at ordered
        have less := (List.pairwise_cons.mp (List.pairwise_append.mp ordered).2.1).1 row here
        omega
      · have less := kept.across_commits split stored row (by rw [numbers]; simp) row later
        omega
    have sub : (landed.flatten.filter p).Sublist
        (row :: (rest ++ after.flatMap Commit.numbers).filter p) := by
      rw [← all, List.flatMap_def]
      exact (kept.sub.trans (List.filter_sublist.map _)).flatten.filter p
    have inside : row ∈ landed.flatten.filter p := by
      refine List.mem_filter.mpr ⟨List.mem_flatten.mpr ⟨c.numbers, ?_, by rw [numbers]; simp⟩,
        by simp [stamp]⟩
      refine kept.stored.subset (List.mem_map_of_mem (List.mem_filter.mpr ⟨?_, stored⟩))
      rw [split]
      simp
    have one := filter_foldl_insertRow row.2.id [] landed.flatten (by simp)
    rw [List.nil_append, ← kept.rows] at one
    rw [one]
    cases found : landed.flatten.filter p with
    | nil =>
        rw [found] at inside
        cases inside
    | cons head tail =>
        rw [found] at sub inside
        rcases List.sublist_cons_iff.mp sub with skipped | ⟨rest', same, -⟩
        · exact absurd (skipped.subset inside) once
        · rw [(List.cons.inj same).1]
          rfl
  ascending life member := by
    rcases List.mem_append.mp member with old | last
    · exact kept.ascending life old
    · rw [List.mem_singleton.mp last]
      exact ascending_commits kept.queue.inOrder
  across _ _ _ split stored := kept.across_commits split stored

/-! ### The events -/

theorem kept_init (documentId : String) : (Journal.init documentId).Kept 0 [] where
  queue := CommitQueue.invariant_resume (.empty documentId) nofun
  numbered := nofun
  frames := rfl
  peers := nofun
  acked := nofun
  sub := .slnil
  stored := .slnil
  rows := rfl
  ascending := nofun
  reached := nofun
  resumed := nofun
  across before c after split := by simp [init] at split

theorem commits_eq (j : Journal) : j.commits = j.past.flatten ++ j.room.queue.commits := by
  rw [commits, lives, List.flatten_append, List.flatten_singleton]

/-- Only the queue, the store, the frames and the acknowledgements matter. -/
theorem congr (kept : j.Kept base landed) {room : Room} (queue : room.queue = j.room.queue)
    (store : room.store = j.room.store) (relays : room.relays = j.room.relays)
    (acked : room.acked = j.room.acked)
    (outbox : ∀ session, ∀ f ∈ room.outbox session, f ∈ j.room.outbox session) :
    Kept { j with room } base landed := by
  have same : commits { j with room } = j.commits := by
    rw [commits_eq, commits_eq, queue]
  refine ⟨?_, ?_, ?_, fun session f member => ?_, ?_, ?_, ?_, ?_, kept.ascending, ?_, kept.resumed,
    kept.across⟩
  · rw [queue, store]
    exact kept.queue
  · rw [store]
    exact kept.numbered
  · rw [same, relays]
    exact kept.frames
  · rw [relays]
    exact kept.peers session f (outbox session f member)
  · rw [same, acked]
    exact kept.acked
  · rw [same]
    exact kept.sub
  · rw [same]
    exact kept.stored
  · rw [store]
    exact kept.rows
  · rw [same, store]
    exact kept.reached

theorem accept (kept : j.Kept base landed) {session nowMs : Nat} {ops : List Operation}
    {coordinator : Coordinator} {relays : List Relay}
    (processed : processIncomingOperation j.room.state.coordinator session ops nowMs =
      .ok (coordinator, relays)) :
    Kept { j with room := j.room.accept session ops coordinator relays } base landed := by
  obtain ⟨queue, numbered, nonempty⟩ := processIncomingOperation_relays processed
  obtain ⟨new, commits, queued, frames⟩ := Coordinator.commits_enqueueAll numbered
  rw [← queue] at commits
  set j' : Journal := { j with room := j.room.accept session ops coordinator relays }
  have grown : j'.commits = j.commits ++ new := by
    rw [commits_eq, commits_eq, List.append_assoc]
    exact congrArg (j.past.flatten ++ ·) commits
  have numbers : new.map (fun c => (c.origin, c.numbers)) =
      relays.map fun f => (f.origin, f.numbers) := by
    have same := congrArg (List.map fun x : Nat × Nat × List Operation =>
      (x.1, numberedFrom x.2.1 x.2.2)) frames
    rw [List.map_map, List.map_map] at same
    exact same
  have unstored : new.filter (fun c => c.phase.stored) = [] :=
    List.filter_eq_nil_iff.mpr fun c member stored => by
      rw [queued c member] at stored
      cases stored
  refine ⟨?_, kept.numbered, ?_, fun s f member => ?_, fun ack member => ?_, ?_, ?_, kept.rows,
    kept.ascending, fun c member stored => ?_, kept.resumed, kept.across⟩
  · show CommitQueue.Invariant base (j.room.store, coordinator.queue)
    rw [queue]
    refine kept.queue.enqueueAll fun batch member => ?_
    obtain ⟨f, inside, rfl⟩ := List.mem_map.mp member
    exact nonempty f inside
  · rw [grown, List.map_append, numbers, ← kept.frames]
    exact List.map_append
  · show f ∈ j.room.relays ++ relays
    have cases' : f ∈ j.room.broadcast relays s := member
    unfold Room.broadcast at cases'
    split_ifs at cases'
    · rcases List.mem_append.mp cases' with old | fresh
      · exact List.mem_append_left _ (kept.peers s f old)
      · exact List.mem_append_right _ (List.mem_of_mem_filter fresh)
    · exact List.mem_append_left _ (kept.peers s f cases')
  · obtain ⟨c, inside, rest⟩ := kept.acked ack member
    exact ⟨c, by rw [grown]; exact List.mem_append_left _ inside, rest⟩
  · rw [grown, List.filter_append, List.map_append]
    exact kept.sub.trans (List.sublist_append_left ..)
  · rw [grown, List.filter_append, unstored, List.append_nil]
    exact kept.stored
  · rw [grown] at member
    rcases List.mem_append.mp member with old | fresh
    · exact kept.reached c old stored
    · rw [queued c fresh] at stored
      cases stored

/-! ### The queue -/

theorem setPhase_split {q : CommitQueue} {i : Nat} {c : Commit} (phase : CommitPhase)
    (entry : q.commits[i]? = some c) :
    ∃ before after, q.commits = before ++ c :: after ∧
      (q.setPhase i phase).commits = before ++ { c with phase } :: after ∧
      ∀ d ∈ after, ∃ k, i < k ∧ q.commits[k]? = some d := by
  obtain ⟨inside, same⟩ := List.getElem?_eq_some_iff.mp entry
  refine ⟨q.commits.take i, q.commits.drop (i + 1), ?_, ?_, fun d member => ?_⟩
  · rw [← same, List.getElem_cons_drop, List.take_append_drop]
  · rw [CommitQueue.setPhase, List.modify_eq_take_cons_drop inside, same]
  · obtain ⟨k, at?⟩ := List.getElem?_of_mem member
    rw [List.getElem?_drop] at at?
    exact ⟨i + 1 + k, by omega, at?⟩

/-- Numbers that are listed stay listed when a commit moves on. -/
theorem sublist_filter_replace {before after : List Commit} {c c' : Commit} (p : Commit → Bool)
    (same : c'.numbers = c.numbers) (listed : p c = true → p c' = true) :
    (((before ++ c :: after).filter p).map Commit.numbers).Sublist
      (((before ++ c' :: after).filter p).map Commit.numbers) := by
  rw [List.filter_append, List.filter_append, List.map_append, List.map_append]
  apply List.Sublist.append_left
  by_cases inside : p c = true
  · rw [List.filter_cons_of_pos inside, List.filter_cons_of_pos (listed inside), List.map_cons,
      List.map_cons, same]
  · rw [List.filter_cons_of_neg inside]
    exact (List.Sublist.filter p (List.sublist_cons_self c' after)).map _

/-- A commit that has not succeeded moves on. -/
theorem moved (kept : j.Kept base landed) {store : Store} {i last : Nat} {c : Commit}
    {phase : CommitPhase} (acks : List (Nat × Nat × Identifier))
    (landed' : List (List (Nat × Operation)))
    (entry : j.room.queue.commits[i]? = some c) (undone : c.phase ≠ .succeeded)
    (queue : CommitQueue.Invariant base
      (store, { j.room.queue.setPhase i phase with lastCommittedSeq := last }))
    (numbered : ∀ row ∈ store.operations, row.seq ≤ store.currentSeq)
    (grown : j.room.store.currentSeq ≤ store.currentSeq)
    (reached : phase.stored = true → c.endSeq ≤ store.currentSeq)
    (told : ∀ ack ∈ acks, phase = .succeeded ∧
      ∃ row ∈ c.numbers, ack = (c.origin, row.1, row.2.id))
    (rows : store.loadFullOperationLogWithSeq = landed'.flatten.foldl insertRow [])
    (lists : ∀ before after, j.commits = before ++ c :: after →
      (∀ d ∈ after, ∃ k, i < k ∧ j.room.queue.commits[k]? = some d) →
      landed'.Sublist (((before ++ { c with phase } :: after).filter
        fun d => !d.phase.waiting).map Commit.numbers) ∧
      (((before ++ { c with phase } :: after).filter
        fun d => d.phase.stored).map Commit.numbers).Sublist landed') :
    Kept { j with room := { j.room.setQueue { j.room.queue.setPhase i phase with
      lastCommittedSeq := last } with store, acked := j.room.acked ++ acks } } base landed' := by
  obtain ⟨before, after, old, new, later⟩ := setPhase_split phase entry
  set j' : Journal := { j with room := { j.room.setQueue { j.room.queue.setPhase i phase with
    lastCommittedSeq := last } with store, acked := j.room.acked ++ acks } }
  have whole : j.commits = (j.past.flatten ++ before) ++ c :: after := by
    rw [commits_eq, old, List.append_assoc]
  have whole' : j'.commits = (j.past.flatten ++ before) ++ { c with phase } :: after := by
    rw [commits_eq, List.append_assoc]
    exact congrArg (j.past.flatten ++ ·) new
  have others : ∀ d ∈ j'.commits, d = { c with phase } ∨ d ∈ j.commits := fun d member => by
    rw [whole'] at member
    rw [whole]
    rcases List.mem_append.mp member with first | rest
    · exact Or.inr (List.mem_append_left _ first)
    · rcases List.mem_cons.mp rest with self | last
      · exact Or.inl self
      · exact Or.inr (List.mem_append_right _ (List.mem_cons_of_mem _ last))
  obtain ⟨sub, stored⟩ := lists _ _ whole later
  have frames := kept.frames
  refine ⟨queue, numbered, ?_, kept.peers, fun ack member => ?_, ?_, ?_, rows, kept.ascending,
    fun d member done => ?_, kept.resumed, kept.across⟩
  · rw [whole, List.map_append, List.map_cons] at frames
    rw [whole', List.map_append, List.map_cons]
    exact frames
  · rcases List.mem_append.mp member with earlier | now
    · obtain ⟨d, inside, succeeded, listed⟩ := kept.acked ack earlier
      refine ⟨d, ?_, succeeded, listed⟩
      rw [whole] at inside
      rw [whole']
      rcases List.mem_append.mp inside with first | rest
      · exact List.mem_append_left _ first
      · rcases List.mem_cons.mp rest with rfl | last
        · exact absurd succeeded undone
        · exact List.mem_append_right _ (List.mem_cons_of_mem _ last)
    · obtain ⟨succeeded, listed⟩ := told ack now
      refine ⟨{ c with phase }, ?_, succeeded, listed⟩
      rw [whole']
      simp
  · rw [whole']
    exact sub
  · rw [whole']
    exact stored
  · rcases others d member with rfl | known
    · exact reached done
    · exact (kept.reached d known done).trans grown

/-- A commit that moves on without its transaction. -/
theorem shifted (kept : j.Kept base landed) {i last : Nat} {c : Commit} {phase : CommitPhase}
    (acks : List (Nat × Nat × Identifier)) (entry : j.room.queue.commits[i]? = some c)
    (undone : c.phase ≠ .succeeded)
    (queue : CommitQueue.Invariant base
      (j.room.store, { j.room.queue.setPhase i phase with lastCommittedSeq := last }))
    (waiting : phase.waiting = true → c.phase.waiting = true)
    (stored : phase.stored = true → c.phase.stored = true)
    (told : ∀ ack ∈ acks, phase = .succeeded ∧
      ∃ row ∈ c.numbers, ack = (c.origin, row.1, row.2.id)) :
    Kept { j with room := { j.room.setQueue { j.room.queue.setPhase i phase with
      lastCommittedSeq := last } with acked := j.room.acked ++ acks } } base landed := by
  have member : c ∈ j.commits := by
    rw [commits_eq]
    exact List.mem_append_right _ (List.mem_of_getElem? entry)
  refine kept.moved acks landed entry undone queue kept.numbered (le_refl _)
    (fun done => kept.reached c member (stored done)) told kept.rows fun before after split _ => ?_
  have sub := kept.sub
  have all := kept.stored
  rw [split] at sub all
  constructor
  · refine sub.trans (sublist_filter_replace _ rfl fun moved => ?_)
    rw [Bool.not_eq_true'] at moved ⊢
    exact Bool.eq_false_iff.mpr fun again => Bool.eq_false_iff.mp moved (waiting again)
  · refine List.Sublist.trans ?_ all
    exact sublist_filter_replace (c := { c with phase }) _ rfl stored

/-- The transaction of a commit. -/
theorem land (kept : j.Kept base landed) {i now : Nat} {store : Store} {queue : CommitQueue}
    (done : j.room.queue.land j.room.store i now = .ok (store, queue)) :
    ∃ landed', Kept { j with room := { j.room.setQueue queue with store } } base landed' := by
  have next := kept.queue.step (show CommitQueue.step (j.room.store, j.room.queue) (.land i now) =
    .ok (store, queue) by rw [CommitQueue.step, done])
  obtain ⟨c, entry, running, rfl, rfl⟩ := CommitQueue.land_cases done
  have nonempty := kept.queue.nonempty c (List.mem_of_getElem? entry)
  have below := kept.queue.below entry running
  obtain ⟨new, spec, current⟩ := j.room.store.commitOperations_spec c.startSeq now c.ops nonempty below
  have queue : CommitQueue.Invariant base ((j.room.store.commitOperations c.startSeq c.ops now).2,
      { j.room.queue.setPhase i .landed with
        lastCommittedSeq := j.room.queue.lastCommittedSeq }) := next
  have told := kept.moved [] (landed ++ [c.numbers]) entry (by rw [running]; rintro ⟨⟩) queue
    (fun row member => ?_) (by rw [current]; exact le_max_left ..)
    (fun _ => by rw [current]; exact le_max_right ..) (by rintro _ ⟨⟩) ?_ fun before after split later => ?_
  · rw [List.append_nil] at told
    exact ⟨_, told⟩
  · rw [spec.operations] at member
    rw [current]
    rcases List.mem_append.mp member with old | added
    · exact (kept.numbered row old).trans (le_max_left ..)
    · obtain ⟨k, named, place⟩ := spec.place row added
      have inside := (List.getElem?_eq_some_iff.mp named).1
      exact le_trans (by omega) (le_max_right ..)
  · rw [Store.commitOperations, if_neg nonempty, List.flatten_append, List.foldl_append, ← kept.rows,
      List.flatten_singleton]
    exact j.room.store.load_insertAll c.startSeq now c.ops below
  · have queued : ∀ d ∈ after, d.phase = .queued := fun d member => by
      obtain ⟨k, greater, at?⟩ := later d member
      exact kept.queue.inOrder.queued_of_unsettled entry (by rw [running]; rfl) greater at?
    -- what comes later is neither tried nor stored
    have untried : after.filter (fun d => !d.phase.waiting) = [] :=
      List.filter_eq_nil_iff.mpr fun d member => by rw [queued d member]; decide
    have unstored : after.filter (fun d => d.phase.stored) = [] :=
      List.filter_eq_nil_iff.mpr fun d member => by rw [queued d member]; decide
    have sub := kept.sub
    have all := kept.stored
    rw [split, List.filter_append] at sub all
    rw [List.filter_append, List.filter_append]
    constructor
    · rw [List.filter_cons_of_neg (by rw [running]; decide), untried, List.append_nil] at sub
      rw [List.filter_cons_of_pos (by rfl), List.map_append, List.map_cons]
      exact sub.append ((List.nil_sublist _).cons_cons _)
    · rw [List.filter_cons_of_neg (by rw [running]; decide), unstored, List.append_nil] at all
      rw [List.filter_cons_of_pos (by rfl), unstored, List.map_append]
      exact all.append (.refl _)

/-- The server starts again from its store. -/
theorem restart (kept : j.Kept base landed) {coordinator : Coordinator}
    (started : warmStart j.room.store = .ok coordinator) :
    Kept ⟨restarted j.room coordinator, j.lives⟩ j.room.store.currentSeq landed := by
  have queue := warmStart_queue started
  set j' : Journal := ⟨restarted j.room coordinator, j.lives⟩
  have fresh : j'.room.queue = .resume j.room.store := queue
  have same : j'.commits = j.commits := by
    rw [commits_eq, fresh]
    exact List.append_nil _
  refine ⟨?_, kept.numbered, ?_, kept.peers, ?_, ?_, ?_, kept.rows, kept.agree.ascending, ?_,
    kept.reached, fun before c after split stored => kept.across_commits split stored⟩
  · rw [fresh]
    exact CommitQueue.invariant_resume _ kept.numbered
  · rw [same]
    exact kept.frames
  · rw [same]
    exact kept.acked
  · rw [same]
    exact kept.sub
  · rw [same]
    exact kept.stored
  · rw [same]
    exact kept.reached

theorem roomStep (kept : j.Kept base landed) {config : OfflineWindowConfig} {event : RoomEvent}
    {room : Room} (done : Room.step config j.room event = .ok room) :
    ∃ landed', Kept { j with room } base landed' := by
  cases event with
  | join session replicaId =>
      simp only [Room.step] at done
      split_ifs at done
      obtain rfl := Except.ok.inj done
      refine ⟨landed, kept.congr rfl rfl rfl rfl fun s f member => ?_⟩
      by_cases here : s = session
      · subst here
        simp only [Function.update_self] at member
        cases member
      · simpa only [Function.update_of_ne here] using member
  | leave session =>
      simp only [Room.step] at done
      split_ifs at done
      obtain rfl := Except.ok.inj done
      exact ⟨landed, kept.congr rfl rfl rfl rfl fun _ _ member => member⟩
  | receive session msg nowMs =>
      simp only [Room.step] at done
      split at done
      · unfold Room.receive at done
        split at done
        · obtain rfl := Except.ok.inj done
          exact ⟨landed, kept⟩
        · split_ifs at done with foreign
          · obtain rfl := Except.ok.inj done
            exact ⟨landed, kept.congr rfl rfl rfl rfl fun _ _ member => member⟩
          · obtain ⟨⟨coordinator, relays⟩, processed, done⟩ := Throwing.ok_of_bind done
            obtain rfl := Except.ok.inj done
            exact ⟨landed, kept.accept processed⟩
      · cases done
  | sweep nowMs =>
      obtain rfl := Except.ok.inj done
      obtain ⟨state, evicted, same, -, -, queue, -⟩ :=
        j.room.state.runOneDocument_spec j.room.sessions config nowMs
      refine ⟨landed, kept.congr ?_ rfl rfl rfl fun _ _ member => member⟩
      rw [← same] at queue
      exact queue
  | start i =>
      obtain ⟨queue, started, done⟩ := Throwing.ok_of_bind done
      obtain rfl := Except.ok.inj done
      have next := kept.queue.step (show CommitQueue.step (j.room.store, j.room.queue) (.start i) =
        .ok (j.room.store, queue) by rw [CommitQueue.step, started]; rfl)
      unfold CommitQueue.start at started
      split at started
      · rename_i c entry
        split_ifs at started with ready
        obtain rfl := Except.ok.inj started
        have told := kept.shifted [] entry (by rw [ready.1]; rintro ⟨⟩) next
          (fun _ => by rw [ready.1]; rfl) (by rintro ⟨⟩) (by rintro _ ⟨⟩)
        rw [List.append_nil] at told
        exact ⟨landed, told⟩
      · cases started
  | land i committedAtMs =>
      obtain ⟨⟨store, queue⟩, done', done⟩ := Throwing.ok_of_bind done
      obtain rfl := Except.ok.inj done
      exact kept.land done'
  | succeed i =>
      obtain ⟨queue, fulfilled, done⟩ := Throwing.ok_of_bind done
      obtain rfl := Except.ok.inj done
      have next := kept.queue.step (show CommitQueue.step (j.room.store, j.room.queue) (.succeed i) =
        .ok (j.room.store, queue) by rw [CommitQueue.step, fulfilled]; rfl)
      unfold CommitQueue.succeed at fulfilled
      split at fulfilled
      · rename_i c entry
        split_ifs at fulfilled with ready
        obtain rfl := Except.ok.inj fulfilled
        refine ⟨landed, kept.shifted _ entry (by rw [ready]; rintro ⟨⟩) next (by rintro ⟨⟩)
          (fun _ => by rw [ready]; rfl) fun ack member => ⟨rfl, ?_⟩⟩
        rw [Room.acksOf, entry] at member
        simp only at member
        split_ifs at member
        · obtain ⟨row, inside, rfl⟩ := List.mem_map.mp member
          exact ⟨row, inside, rfl⟩
        · cases member
      · cases fulfilled
  | fail i =>
      obtain ⟨queue, failed, done⟩ := Throwing.ok_of_bind done
      obtain rfl := Except.ok.inj done
      have next := kept.queue.step (show CommitQueue.step (j.room.store, j.room.queue) (.fail i) =
        .ok (j.room.store, queue) by rw [CommitQueue.step, failed]; rfl)
      unfold CommitQueue.fail at failed
      split at failed
      · rename_i c entry
        split_ifs at failed with ready
        obtain rfl := Except.ok.inj failed
        have told := kept.shifted [] entry
          (by rcases ready with phase | phase <;> rw [phase] <;> rintro ⟨⟩) next (by rintro ⟨⟩)
          (by rintro ⟨⟩) (by rintro _ ⟨⟩)
        rw [List.append_nil] at told
        exact ⟨landed, told⟩
      · cases failed

theorem step (kept : j.Kept base landed) {config : OfflineWindowConfig} {event : JournalEvent}
    (done : Journal.step config j event = .ok j') : ∃ base' landed', j'.Kept base' landed' := by
  cases event with
  | room event =>
      obtain ⟨room, moved, done⟩ := Throwing.ok_of_bind done
      obtain rfl := Except.ok.inj done
      exact ⟨base, kept.roomStep moved⟩
  | restart =>
      obtain ⟨coordinator, started, done⟩ := Throwing.ok_of_bind done
      obtain rfl := Except.ok.inj done
      exact ⟨_, _, kept.restart started⟩

end Kept

/-! ### The numbers that a peer writes down -/

/-- What a client writes down while it takes in a frame with these numbers. -/
structure Attributes (c c' : ConnectedClient) (rows : List (Nat × Operation)) : Prop where
  confirmed : ∀ seq ∈ c'.liveConfirmedSeqs, seq ∈ c.liveConfirmedSeqs ∨ ∃ row ∈ rows, row.1 = seq
  pending : ∀ entry ∈ c'.livePendingSeqs,
    entry ∈ c.livePendingSeqs ∨ ∃ row ∈ rows, (row.2.id, row.1) = entry
  confirmedStays : ∀ seq ∈ c.liveConfirmedSeqs, seq ∈ c'.liveConfirmedSeqs
  pendingStays : ∀ entry ∈ c.livePendingSeqs, entry ∈ c'.livePendingSeqs ∨
    ∃ row ∈ rows, row.2.id = entry.1 ∧ (row.2.id, row.1) ∈ c'.livePendingSeqs
  /-- A number is confirmed, or the operation waits under it, unless its stamp comes again. -/
  counted : c.engine.isSome → ∀ row ∈ rows, row.1 ∈ c'.liveConfirmedSeqs ∨
    ∃ row' ∈ rows, row'.2.id = row.2.id ∧ (row'.2.id, row'.1) ∈ c'.livePendingSeqs

theorem Attributes.refl {c : ConnectedClient} {rows : List (Nat × Operation)}
    (nothing : c.engine = none ∨ rows = []) : Attributes c c rows where
  confirmed _ member := Or.inl member
  pending _ member := Or.inl member
  confirmedStays _ member := member
  pendingStays _ member := Or.inl member
  counted resident row member := by
    rcases nothing with empty | empty
    · rw [empty] at resident
      cases resident
    · rw [empty] at member
      cases member

theorem mem_setSeq {entries : List (Identifier × Nat)} {id : Identifier} {seq : Nat}
    {entry : Identifier × Nat} (member : entry ∈ ConnectedClient.setSeq entries id seq) :
    entry = (id, seq) ∨ entry ∈ entries ∧ entry.1 ≠ id := by
  unfold ConnectedClient.setSeq at member
  split_ifs at member with known
  · obtain ⟨e, inside, rfl⟩ := List.mem_map.mp member
    by_cases here : e.1 = id
    · exact Or.inl (if_pos here)
    · rw [if_neg here]
      exact Or.inr ⟨inside, here⟩
  · rcases List.mem_append.mp member with old | new
    · refine Or.inr ⟨old, fun same => known (List.any_eq_true.mpr ⟨entry, old, ?_⟩)⟩
      exact decide_eq_true same
    · exact Or.inl (List.mem_singleton.mp new)

theorem setSeq_mem (entries : List (Identifier × Nat)) (id : Identifier) (seq : Nat) :
    (id, seq) ∈ ConnectedClient.setSeq entries id seq := by
  unfold ConnectedClient.setSeq
  split_ifs with known
  · obtain ⟨e, inside, same⟩ := List.any_eq_true.mp known
    exact List.mem_map.mpr ⟨e, inside, if_pos (of_decide_eq_true same)⟩
  · simp

theorem setSeq_of_ne {entries : List (Identifier × Nat)} {id : Identifier} {seq : Nat}
    {entry : Identifier × Nat} (member : entry ∈ entries) (other : entry.1 ≠ id) :
    entry ∈ ConnectedClient.setSeq entries id seq := by
  unfold ConnectedClient.setSeq
  split_ifs with known
  · exact List.mem_map.mpr ⟨entry, member, if_neg other⟩
  · exact List.mem_append_left _ member

section Cons

variable {c c' : ConnectedClient} {row : Nat × Operation} {rows : List (Nat × Operation)}

/-- The first operation was applied. -/
theorem Attributes.confirm (row : Nat × Operation) {engine : Option Engine} (later : Attributes { c with
    engine, liveConfirmedSeqs := c.liveConfirmedSeqs ++ [row.1] } c' rows)
    (resident : engine.isSome) : Attributes c c' (row :: rows) where
  confirmed seq member := by
    rcases later.confirmed seq member with old | ⟨row', inside, same⟩
    · rcases List.mem_append.mp old with older | self
      · exact Or.inl older
      · exact Or.inr ⟨row, List.mem_cons_self, (List.mem_singleton.mp self).symm⟩
    · exact Or.inr ⟨row', List.mem_cons_of_mem _ inside, same⟩
  pending entry member := (later.pending entry member).imp_right fun ⟨row', inside, same⟩ =>
    ⟨row', List.mem_cons_of_mem _ inside, same⟩
  confirmedStays seq member := later.confirmedStays seq (List.mem_append_left _ member)
  pendingStays entry member := (later.pendingStays entry member).imp_right
    fun ⟨row', inside, same⟩ => ⟨row', List.mem_cons_of_mem _ inside, same⟩
  counted _ row' member := by
    rcases List.mem_cons.mp member with rfl | inside
    · exact Or.inl (later.confirmedStays _ (by simp))
    · exact (later.counted resident row' inside).imp_right fun ⟨row'', inside', same⟩ =>
        ⟨row'', List.mem_cons_of_mem _ inside', same⟩

/-- The first operation was buffered. -/
theorem Attributes.wait (row : Nat × Operation) {engine : Option Engine} (later : Attributes { c with
    engine, livePendingSeqs := ConnectedClient.setSeq c.livePendingSeqs row.2.id row.1 } c' rows)
    (resident : engine.isSome) : Attributes c c' (row :: rows) where
  confirmed seq member := (later.confirmed seq member).imp_right fun ⟨row', inside, same⟩ =>
    ⟨row', List.mem_cons_of_mem _ inside, same⟩
  pending entry member := by
    rcases later.pending entry member with old | ⟨row', inside, same⟩
    · rcases mem_setSeq old with self | ⟨older, -⟩
      · exact Or.inr ⟨row, List.mem_cons_self, self.symm⟩
      · exact Or.inl older
    · exact Or.inr ⟨row', List.mem_cons_of_mem _ inside, same⟩
  confirmedStays seq member := later.confirmedStays seq member
  pendingStays entry member := by
    by_cases here : entry.1 = row.2.id
    · right
      rcases later.pendingStays (row.2.id, row.1) (setSeq_mem _ _ _) with kept | ⟨row', inside, same, at'⟩
      · exact ⟨row, List.mem_cons_self, here.symm, kept⟩
      · exact ⟨row', List.mem_cons_of_mem _ inside, same.trans here.symm, at'⟩
    · exact (later.pendingStays entry (setSeq_of_ne member here)).imp_right
        fun ⟨row', inside, same⟩ => ⟨row', List.mem_cons_of_mem _ inside, same⟩
  counted _ row' member := by
    rcases List.mem_cons.mp member with rfl | inside
    · right
      rcases later.pendingStays (row'.2.id, row'.1) (setSeq_mem _ _ _) with
        kept | ⟨row'', inside, same, at'⟩
      · exact ⟨row', List.mem_cons_self, rfl, kept⟩
      · exact ⟨row'', List.mem_cons_of_mem _ inside, same, at'⟩
    · exact (later.counted resident row' inside).imp_right fun ⟨row'', inside', same⟩ =>
        ⟨row'', List.mem_cons_of_mem _ inside', same⟩

end Cons

/-- A client counts on from the number of the frame. -/
theorem applyLive_attributes {c c' : ConnectedClient} {seq : Nat} {ops : List Operation}
    (applied : c.applyLive seq ops = .ok c') : Attributes c c' (numberedFrom seq ops) := by
  induction ops generalizing c seq with
  | nil =>
      obtain rfl := Except.ok.inj applied
      exact .refl (Or.inr rfl)
  | cons op ops ih =>
      rw [ConnectedClient.applyLive] at applied
      split at applied
      · rename_i missing
        obtain rfl := Except.ok.inj applied
        exact .refl (Or.inl missing)
      · obtain ⟨⟨buffered, e⟩, -, applied⟩ := Throwing.ok_of_bind applied
        simp only at applied
        split_ifs at applied
        · exact (ih applied).wait (seq, op) rfl
        · exact (ih applied).confirm (seq, op) rfl

/-! ### The result -/

/-- A character of the session 7 is stored and acknowledged before the server starts again. -/
def typedOne : List JournalEvent :=
  [.room (.join 7 1), .room (.join 8 2),
    .room (.receive 7 (.opInsert ⟨⟨1, 1⟩, 97, none, .R, false⟩) 0),
    .room (.start 0), .room (.land 0 1), .room (.succeed 0), .restart]

/-- A character of the session 7 is broadcast, and the server starts again before it is stored; then
a character of the session 9 comes. -/
def forgotten : List JournalEvent :=
  [.room (.join 7 1), .room (.join 8 2), .room (.receive 7 (.opInsert ⟨⟨1, 1⟩, 97, none, .R, false⟩) 0),
    .restart, .room (.join 9 3), .room (.receive 9 (.opInsert ⟨⟨1, 3⟩, 98, none, .R, false⟩) 1)]

end Journal

end ConfluenceEditor
