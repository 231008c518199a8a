/-
Runs of the durable queue.

Beside the browser stands a journal for each document: the writes that were scheduled for it, first those
that the database has executed, behind them those that a crash would take (`WriteBehind`). While a document is
open in one tab at a time and no write is given up, the rows of the document are the front of its journal
applied to the rows that were there at first, and the queue in memory is the whole journal
(`queue_is_journal`): a reload goes back to a front of what was scheduled, and what is flushed stays
(`flushed_stays`).
-/

import ConfluenceEditor.Client.QueueRows
import ConfluenceEditor.Library.Run
import ConfluenceEditor.Library.WriteBehind

namespace ConfluenceEditor

/-! ### Transactions of a tab -/

namespace Profile

/-- The transactions of a tab, in their order. -/
def own (transactions : List (Nat × Transaction)) (id : Nat) : List Transaction :=
  (transactions.filter fun x => x.1 = id).map Prod.snd

/-- What a tab has handed over, and what was not executed. -/
def handed (transactions : List (Nat × Transaction)) (id : Nat) : List PendingWrite :=
  (own transactions id).flatMap Transaction.writes

variable {transactions : List (Nat × Transaction)} {id id' : Nat}

theorem own_submit (xs : List Transaction) (id : Nat) :
    own (transactions ++ xs.map fun x => (id, x)) id = own transactions id ++ xs := by
  have all : (xs.map fun x => (id, x)).filter (fun x => x.1 = id) = xs.map fun x => (id, x) :=
    List.filter_eq_self.mpr fun x member => by
      obtain ⟨_, _, rfl⟩ := List.mem_map.mp member
      exact decide_eq_true rfl
  rw [own, List.filter_append, all, List.map_append, List.map_map, own]
  exact congrArg _ (List.map_id xs)

theorem own_submit_other (xs : List Transaction) (other : id' ≠ id) :
    own (transactions ++ xs.map fun x => (id, x)) id' = own transactions id' := by
  have none : (xs.map fun x => (id, x)).filter (fun x => x.1 = id') = [] :=
    List.filter_eq_nil_iff.mpr fun x member => by
      obtain ⟨_, _, rfl⟩ := List.mem_map.mp member
      rw [decide_eq_true_eq]
      exact other.symm
  rw [own, List.filter_append, none, List.append_nil, own]

theorem own_cons (id : Nat) (x : Transaction) (rest : List (Nat × Transaction)) :
    own ((id, x) :: rest) id = x :: own rest id := by
  have kept : ((id, x) :: rest).filter (fun x => x.1 = id) = (id, x) :: rest.filter fun x => x.1 = id :=
    List.filter_cons_of_pos (decide_eq_true rfl)
  rw [own, kept, List.map_cons, own]

theorem own_cons_other (other : id' ≠ id) (x : Transaction) (rest : List (Nat × Transaction)) :
    own ((id, x) :: rest) id' = own rest id' := by
  rw [own, List.filter_cons_of_neg (by rw [decide_eq_true_eq]; exact other.symm), own]

theorem own_forget (transactions : List (Nat × Transaction)) (id : Nat) :
    own (transactions.filter fun x => x.1 ≠ id) id = [] := by
  rw [own, List.filter_filter, List.filter_eq_nil_iff.mpr fun x _ => ?_]
  · rfl
  · rw [Bool.and_eq_true, decide_eq_true_eq, decide_eq_true_eq]
    exact fun both => both.2 both.1

theorem own_forget_other (transactions : List (Nat × Transaction)) (other : id' ≠ id) :
    own (transactions.filter fun x => x.1 ≠ id) id' = own transactions id' := by
  rw [own, List.filter_filter, own]
  refine congrArg _ (List.filter_congr fun x _ => ?_)
  rw [Bool.eq_iff_iff, Bool.and_eq_true, decide_eq_true_eq, decide_eq_true_eq]
  exact ⟨And.left, fun same => ⟨same, fun here => other (same.symm.trans here)⟩⟩

end Profile

/-! ### Journals -/

/-- The browser, with the journal of each document. -/
structure JournaledProfile where
  profile : Profile
  journals : String → WriteBehind PendingWrite

/-- The writes of the transaction that a transaction makes when it is executed. -/
def Transaction.follows (db : Database) (documentId : String) : Transaction → List PendingWrite
  | .readRejected => (db.rejectedKeys documentId).map .deleteRejected
  | _ => []

namespace JournaledProfile

open Profile

def setJournal (s : JournaledProfile) (d : String) (b : WriteBehind PendingWrite) :
    String → WriteBehind PendingWrite := fun d' => if d' = d then b else s.journals d'

/-- The journals after an event: what is scheduled is written, what is executed is persisted, and what a
crash takes is gone. The deletion of rejected operations gets in front of what is still pending. -/
def record (s : JournaledProfile) : ProfileEvent → String → WriteBehind PendingWrite
  | .call id nowMs c =>
      match s.profile.tabs id with
      | none => s.journals
      | some t => s.setJournal t.documentId
          ((s.journals t.documentId).write (t.scheduled nowMs c))
  | .execute =>
      match s.profile.transactions with
      | [] => s.journals
      | (id, x) :: rest =>
          match s.profile.tabs id with
          | none => s.journals
          | some t => s.setJournal t.documentId
              (((s.journals t.documentId).persist x.writes.length).slip (handed rest id).length
                (x.follows s.profile.database t.documentId))
  | .crash id =>
      match s.profile.tabs id with
      | none => s.journals
      | some t => s.setJournal t.documentId (s.journals t.documentId).crash
  | _ => s.journals

def step (s : JournaledProfile) (event : ProfileEvent) : Except ProfileHalt JournaledProfile :=
  match s.profile.step event with
  | .ok profile => .ok ⟨profile, s.record event⟩
  | .error halt => .error halt

/-- A document is opened where it is not open, and no write is given up. -/
def Alone (s : JournaledProfile) : ProfileEvent → Prop
  | .opens _ d => ∀ id t, s.profile.tabs id = some t → t.documentId ≠ d
  | .abort => ∀ x ∈ s.profile.transactions.head?, x.2.writes = []
  | _ => True

/-- What the writes of a log make of a database. -/
def replay (base : Database) (log : List PendingWrite) : Database := log.foldl Database.apply base

/-- How a tab stands to the journal of its document. -/
structure Follows (base : Database) (s : JournaledProfile) (id : Nat) (t : Tab) : Prop where
  behind : (s.journals t.documentId).behind = handed s.profile.transactions id ++ t.pending
  timed : t.Timed
  reading : t.durable = .reading →
    own s.profile.transactions id = [.load] ∧ t.pending = [] ∧ t.unacked = []
  unavailable : t.durable = .unavailable → own s.profile.transactions id = [] ∧ t.pending = []
  attached : t.durable = .attached → Transaction.load ∉ own s.profile.transactions id ∧
    ∀ i, UnackedQueue.get t.unacked i =
      (replay base (s.journals t.documentId).log).queued t.documentId i

structure Agrees (base : Database) (s : JournaledProfile) : Prop where
  rows : ∀ d, s.profile.database.rows d = (replay base (s.journals d).persisted).rows d
  documents : ∀ d, ∀ w ∈ (s.journals d).behind, w.documentId = d
  tabs : ∀ id t, s.profile.tabs id = some t → Follows base s id t
  alone : ∀ id id' t t', s.profile.tabs id = some t → s.profile.tabs id' = some t' →
    t.documentId = t'.documentId → id = id'
  absent : ∀ d, (∀ id t, s.profile.tabs id = some t → t.documentId ≠ d) → (s.journals d).behind = []
  owned : ∀ x ∈ s.profile.transactions, (s.profile.tabs x.1).isSome = true

variable {base : Database} {s s' : JournaledProfile} {id : Nat} {t t' : Tab}

/-- The other tabs do not notice. -/
theorem Follows.frame (follows : Follows base s id t)
    (own : own s'.profile.transactions id = own s.profile.transactions id)
    (journal : s'.journals t.documentId = s.journals t.documentId) : Follows base s' id t := by
  refine ⟨?_, follows.timed, ?_, ?_, ?_⟩
  · rw [journal, follows.behind, handed, handed, own]
  · rw [own]
    exact follows.reading
  · rw [own]
    exact follows.unavailable
  · rw [own, journal]
    exact follows.attached

theorem setJournal_self (s : JournaledProfile) (d : String) (b : WriteBehind PendingWrite) :
    s.setJournal d b d = b := if_pos rfl

/-- A change of one tab and of its journal. -/
theorem Agrees.update (agrees : Agrees base s) (here : s.profile.tabs id = some t)
    {b : WriteBehind PendingWrite} (same : t'.documentId = t.documentId)
    (tabs : ∀ i, s'.profile.tabs i = if i = id then some t' else s.profile.tabs i)
    (journals : s'.journals = s.setJournal t.documentId b)
    (owned : ∀ x ∈ s'.profile.transactions, x.1 = id ∨ x ∈ s.profile.transactions)
    (others : ∀ i, i ≠ id → own s'.profile.transactions i = own s.profile.transactions i)
    (rows : s'.profile.database.rows t.documentId = (replay base b.persisted).rows t.documentId)
    (apart : ∀ d, d ≠ t.documentId → s'.profile.database.rows d = s.profile.database.rows d)
    (documents : ∀ w ∈ b.behind, w.documentId = t.documentId) (follows : Follows base s' id t') :
    Agrees base s' := by
  have own' : s'.journals t.documentId = b := by rw [journals, setJournal_self]
  have journal : ∀ d, d ≠ t.documentId → s'.journals d = s.journals d := fun d other => by
    rw [journals]
    exact if_neg other
  have found : ∀ i t₁, s'.profile.tabs i = some t₁ →
      (i = id ∧ t₁ = t') ∨ (i ≠ id ∧ s.profile.tabs i = some t₁) := fun i t₁ found => by
    rw [tabs] at found
    by_cases this : i = id
    · rw [if_pos this] at found
      exact Or.inl ⟨this, (Option.some.inj found).symm⟩
    · rw [if_neg this] at found
      exact Or.inr ⟨this, found⟩
  refine ⟨fun d => ?_, fun d w member => ?_, fun i t₁ open' => ?_,
    fun i i' t₁ t₂ first second equal => ?_, fun d empty => ?_, fun x member => ?_⟩
  · by_cases this : d = t.documentId
    · rw [this, own', rows]
    · rw [journal d this, apart d this, agrees.rows d]
  · by_cases this : d = t.documentId
    · rw [this, own'] at member
      exact (documents w member).trans this.symm
    · rw [journal d this] at member
      exact agrees.documents d w member
  · rcases found i t₁ open' with ⟨rfl, rfl⟩ | ⟨other, before⟩
    · exact follows
    · have distinct : t₁.documentId ≠ t.documentId := fun equal =>
        other (agrees.alone i id t₁ t before here equal)
      exact (agrees.tabs i t₁ before).frame (others i other) (journal _ distinct)
  · rcases found i t₁ first with ⟨rfl, rfl⟩ | ⟨_, first'⟩
    · rcases found i' t₂ second with ⟨rfl, rfl⟩ | ⟨_, second'⟩
      · rfl
      · exact agrees.alone i i' t t₂ here second' (same.symm.trans equal)
    · rcases found i' t₂ second with ⟨rfl, rfl⟩ | ⟨_, second'⟩
      · exact agrees.alone i i' t₁ t first' here (equal.trans same)
      · exact agrees.alone i i' t₁ t₂ first' second' equal
  · have open' : s'.profile.tabs id = some t' := by rw [tabs, if_pos rfl]
    have distinct : d ≠ t.documentId := fun this => empty id t' open' (same.trans this.symm)
    rw [journal d distinct]
    refine agrees.absent d fun i t₁ before => ?_
    by_cases this : i = id
    · rw [this, here] at before
      cases before
      exact distinct.symm
    · exact empty i t₁ (by rw [tabs, if_neg this, before])
  · rw [tabs]
    by_cases this : x.1 = id
    · rw [if_pos this]
      rfl
    · rw [if_neg this]
      exact agrees.owned x ((owned x member).resolve_left this)

/-- A method of a tab that is not reading any more. -/
theorem Agrees.after (agrees : Agrees base s) (here : s.profile.tabs id = some t)
    (settled : t.durable ≠ .reading) {ws : List PendingWrite} {result : Tab × List Transaction}
    (schedules : t.Schedules ws result) (documents : ∀ w ∈ ws, w.documentId = t.documentId)
    (queue : t.durable = .attached → ∀ db, (∀ i, UnackedQueue.get t.unacked i = db.queued t.documentId i) →
      ∀ i, UnackedQueue.get result.1.unacked i = (replay db ws).queued t.documentId i)
    (detached : t.durable ≠ .attached → ws = []) (profile : s'.profile = s.profile.after id result)
    (journals : s'.journals = s.setJournal t.documentId ((s.journals t.documentId).write ws)) :
    Agrees base s' := by
  have follows := agrees.tabs id t here
  have transactions : s'.profile.transactions =
      s.profile.transactions ++ result.2.map fun x => (id, x) := by
    rw [profile]
    rfl
  have own' : own s'.profile.transactions id = own s.profile.transactions id ++ result.2 := by
    rw [transactions, own_submit]
  have journal : s'.journals t.documentId = (s.journals t.documentId).write ws := by
    rw [journals, setJournal_self]
  have database : s'.profile.database = s.profile.database := by
    rw [profile]
    rfl
  refine agrees.update here schedules.documentId (fun i => ?_) journals (fun x member => ?_)
    (fun i other => ?_) ?_ (fun d _ => ?_) (fun w member => ?_) ?_
  · rw [profile]
    rfl
  · rw [transactions] at member
    rcases List.mem_append.mp member with old | new
    · exact Or.inr old
    · obtain ⟨_, _, rfl⟩ := List.mem_map.mp new
      exact Or.inl rfl
  · rw [transactions, own_submit_other result.2 other]
  · rw [database]
    exact agrees.rows t.documentId
  · rw [database]
  · rcases List.mem_append.mp member with old | new
    · exact agrees.documents t.documentId w old
    · exact documents w new
  · refine ⟨?_, schedules.timed follows.timed, fun reading => ?_, fun unavailable => ?_,
      fun attached => ?_⟩
    · rw [schedules.documentId, journal, handed, own', List.flatMap_append, List.append_assoc,
        schedules.moved, WriteBehind.write, follows.behind, handed, List.append_assoc]
    · exact absurd (schedules.durable.symm.trans reading) settled
    · have before := schedules.durable.symm.trans unavailable
      have other : t.durable ≠ .attached := fun attached => by
        rw [before] at attached
        cases attached
      have ⟨unowned, idle⟩ := follows.unavailable before
      have nothing := schedules.detached other
      have moved := schedules.moved
      rw [nothing, detached other, idle] at moved
      rw [own', unowned, nothing]
      exact ⟨rfl, moved⟩
    · have before := schedules.durable.symm.trans attached
      have ⟨noLoad, same⟩ := follows.attached before
      refine ⟨?_, fun i => ?_⟩
      · rw [own']
        exact fun member => (List.mem_append.mp member).elim noLoad schedules.noLoad
      · rw [schedules.documentId, journal, WriteBehind.log_write, replay, List.foldl_append]
        exact queue before _ same i

/-! ### Execution -/

variable {x : Transaction} {rest : List (Nat × Transaction)}

/-- A transaction other than the load is that of a tab that is attached. -/
theorem Follows.attached_of_mem (follows : Follows base s id t)
    (member : x ∈ own s.profile.transactions id) (other : x ≠ .load) : t.durable = .attached := by
  cases durable : t.durable with
  | attached => rfl
  | reading =>
      rw [(follows.reading durable).1] at member
      exact absurd (List.mem_singleton.mp member) other
  | unavailable =>
      rw [(follows.unavailable durable).1] at member
      cases member

/-- The load is the only transaction of a tab that is reading. -/
theorem Follows.reading_of_load (follows : Follows base s id t)
    (member : .load ∈ own s.profile.transactions id) : t.durable = .reading := by
  cases durable : t.durable with
  | attached => exact absurd member (follows.attached durable).1
  | reading => rfl
  | unavailable =>
      rw [(follows.unavailable durable).1] at member
      cases member

/-- What is behind, with the oldest transaction in front. -/
theorem Follows.behind_cons (follows : Follows base s id t)
    (head : s.profile.transactions = (id, x) :: rest) :
    (s.journals t.documentId).behind = x.writes ++ (handed rest id ++ t.pending) := by
  rw [follows.behind, head, handed, own_cons, List.flatMap_cons, List.append_assoc]
  rfl

/-- The writes of a transaction reach the rows. -/
theorem Agrees.execute_writes (agrees : Agrees base s) (here : s.profile.tabs id = some t)
    (head : s.profile.transactions = (id, x) :: rest) (other : x ≠ .load)
    (profile : s'.profile = { s.profile with
      transactions := rest, database := x.writes.foldl Database.apply s.profile.database })
    (journals : s'.journals = s.setJournal t.documentId
      ((s.journals t.documentId).persist x.writes.length)) : Agrees base s' := by
  have follows := agrees.tabs id t here
  have behind := follows.behind_cons head
  have mine : own s.profile.transactions id = x :: own rest id := by rw [head, own_cons]
  have attached : t.durable = .attached :=
    follows.attached_of_mem (mine ▸ List.mem_cons_self) other
  have journal : s'.journals t.documentId =
      ⟨(s.journals t.documentId).persisted ++ x.writes, handed rest id ++ t.pending⟩ := by
    rw [journals, setJournal_self, WriteBehind.persist_append behind]
  have transactions : s'.profile.transactions = rest := by rw [profile]
  have tabs : s'.profile.tabs = s.profile.tabs := by rw [profile]
  have database : s'.profile.database = x.writes.foldl Database.apply s.profile.database := by
    rw [profile]
  have ours : ∀ w ∈ x.writes, w.documentId = t.documentId := fun w member =>
    agrees.documents t.documentId w (by
      rw [behind]
      exact List.mem_append_left _ member)
  refine agrees.update here rfl (fun i => ?_) journals (fun y member => ?_) (fun i apart => ?_) ?_
    (fun d apart => ?_) (fun w member => ?_) ?_
  · rw [tabs]
    by_cases this : i = id
    · rw [if_pos this, this, here]
    · rw [if_neg this]
  · rw [head]
    rw [transactions] at member
    exact Or.inr (List.mem_cons_of_mem _ member)
  · rw [transactions, head, own_cons_other apart]
  · have looks : ∀ w ∈ x.writes, ∀ db db' : Database, db.rows t.documentId = db'.rows t.documentId →
        (db.apply w).rows t.documentId = (db'.apply w).rows t.documentId :=
      fun w _ _ _ same => Database.rows_apply_congr same w
    rw [WriteBehind.persist_append behind, database, replay, List.foldl_append]
    exact WriteBehind.view_foldl_congr looks (agrees.rows t.documentId)
  · rw [database]
    exact WriteBehind.view_foldl_silent
      (fun w member db => Database.rows_apply_other (by rw [ours w member]; exact apart.symm) db) _
  · rw [WriteBehind.persist_append behind] at member
    exact agrees.documents t.documentId w (by
      rw [behind]
      exact List.mem_append_right _ member)
  · have ⟨noLoad, queue⟩ := follows.attached attached
    refine ⟨?_, follows.timed, fun reading => ?_, fun unavailable => ?_, fun _ => ⟨?_, fun i => ?_⟩⟩
    · rw [journal, transactions]
    · rw [attached] at reading
      cases reading
    · rw [attached] at unavailable
      cases unavailable
    · rw [transactions]
      rw [mine] at noLoad
      exact fun member => noLoad (List.mem_cons_of_mem _ member)
    · have log : (s'.journals t.documentId).log = (s.journals t.documentId).log := by
        rw [journals, setJournal_self, WriteBehind.log_persist]
      rw [log]
      exact queue i

/-- A tab gets what the database holds. -/
theorem Agrees.execute_load (agrees : Agrees base s) (here : s.profile.tabs id = some t)
    (head : s.profile.transactions = (id, .load) :: rest)
    (profile : s'.profile = { s.profile with transactions := rest }.setTab id
      (some (t.restore s.profile.database)))
    (journals : s'.journals = s.setJournal t.documentId (s.journals t.documentId)) :
    Agrees base s' := by
  have follows := agrees.tabs id t here
  have mine : own s.profile.transactions id = .load :: own rest id := by rw [head, own_cons]
  have reading : t.durable = .reading := follows.reading_of_load (mine ▸ List.mem_cons_self)
  have ⟨single, idle, empty⟩ := follows.reading reading
  have unowned : own rest id = [] := (List.cons.inj (mine.symm.trans single)).2
  have behind : (s.journals t.documentId).behind = [] := by
    rw [follows.behind, handed, single, idle]
    rfl
  have journal : s'.journals t.documentId = s.journals t.documentId := by
    rw [journals, setJournal_self]
  have transactions : s'.profile.transactions = rest := by
    rw [profile]
    rfl
  have database : s'.profile.database = s.profile.database := by
    rw [profile]
    rfl
  have same : (t.restore s.profile.database).documentId = t.documentId := rfl
  refine agrees.update here same (fun i => ?_) journals (fun y member => ?_) (fun i apart => ?_) ?_
    (fun d _ => ?_) (fun w member => ?_) ?_
  · rw [profile]
    rfl
  · rw [head]
    rw [transactions] at member
    exact Or.inr (List.mem_cons_of_mem _ member)
  · rw [transactions, head, own_cons_other apart]
  · rw [database]
    exact agrees.rows t.documentId
  · rw [database]
  · rw [behind] at member
    cases member
  · refine ⟨?_, follows.timed, fun again => ?_, fun unavailable => ?_, fun _ => ⟨?_, fun i => ?_⟩⟩
    · rw [same, journal, behind, handed, transactions, unowned]
      exact idle.symm
    · cases again
    · cases unavailable
    · rw [transactions, unowned]
      exact List.not_mem_nil
    · have restored : (t.restore s.profile.database).unacked =
          s.profile.database.loadUnacked t.documentId := by
        show (s.profile.database.loadUnacked t.documentId).foldl UnackedQueue.add t.unacked = _
        rw [empty]
        exact UnackedQueue.foldl_add (by
          rw [List.nil_append]
          exact Database.loadUnacked_distinct)
      have log : (s.journals t.documentId).log = (s.journals t.documentId).persisted := by
        rw [WriteBehind.log, behind, List.append_nil]
      rw [restored, Database.get_loadUnacked, same, journal, log]
      exact Database.queued_rows (agrees.rows t.documentId) i

/-- The keys are read, and their deletion is handed over. -/
theorem Agrees.execute_readRejected (agrees : Agrees base s) (here : s.profile.tabs id = some t)
    (head : s.profile.transactions = (id, .readRejected) :: rest)
    (profile : s'.profile = { s.profile with transactions := rest }.executed id t .readRejected)
    (journals : s'.journals = s.setJournal t.documentId ((s.journals t.documentId).slip
      (handed rest id).length (Transaction.readRejected.follows s.profile.database t.documentId))) :
    Agrees base s' := by
  have follows := agrees.tabs id t here
  have mine : own s.profile.transactions id = .readRejected :: own rest id := by rw [head, own_cons]
  have attached : t.durable = .attached :=
    follows.attached_of_mem (mine ▸ List.mem_cons_self) Transaction.noConfusion
  have ⟨noLoad, queue⟩ := follows.attached attached
  rw [mine] at noLoad
  have behind : (s.journals t.documentId).behind = handed rest id ++ t.pending :=
    follows.behind_cons head
  set keys := s.profile.database.rejectedKeys t.documentId with hkeys
  set more : List Transaction := if keys.length = 0 then [] else [.deleteRejected keys] with hmore
  have writes : more.flatMap Transaction.writes = keys.map .deleteRejected := by
    rw [hmore]
    by_cases none : keys.length = 0
    · rw [if_pos none, List.length_eq_zero_iff.mp none]
      rfl
    · rw [if_neg none, List.flatMap_singleton]
      rfl
  have after : s'.profile = { s.profile with transactions := rest }.submit id more := by
    rw [profile, Profile.executed, hmore]
    by_cases none : keys.length = 0
    · rw [if_pos none, if_pos none, Profile.submit, List.map_nil, List.append_nil]
    · rw [if_neg none, if_neg none]
  have transactions : s'.profile.transactions = rest ++ more.map fun y => (id, y) := by
    rw [after]
    rfl
  have database : s'.profile.database = s.profile.database := by
    rw [after]
    rfl
  have slipped : (s.journals t.documentId).slip (handed rest id).length
      (Transaction.readRejected.follows s.profile.database t.documentId) =
        ⟨(s.journals t.documentId).persisted,
          handed rest id ++ keys.map .deleteRejected ++ t.pending⟩ :=
    WriteBehind.slip_append behind _
  have journal : s'.journals t.documentId = ⟨(s.journals t.documentId).persisted,
      handed rest id ++ keys.map .deleteRejected ++ t.pending⟩ := by
    rw [journals, setJournal_self, slipped]
  have noMore : .load ∉ more := by
    rw [hmore]
    split
    · exact List.not_mem_nil
    · rw [List.mem_singleton]
      exact Transaction.noConfusion
  refine agrees.update here rfl (fun i => ?_) journals (fun y member => ?_) (fun i apart => ?_) ?_
    (fun d _ => ?_) (fun w member => ?_) ?_
  · rw [after]
    show s.profile.tabs i = _
    by_cases this : i = id
    · rw [if_pos this, this, here]
    · rw [if_neg this]
  · rw [transactions] at member
    rw [head]
    rcases List.mem_append.mp member with old | new
    · exact Or.inr (List.mem_cons_of_mem _ old)
    · obtain ⟨_, _, rfl⟩ := List.mem_map.mp new
      exact Or.inl rfl
  · rw [transactions, own_submit_other more apart, head, own_cons_other apart]
  · rw [database, slipped]
    exact agrees.rows t.documentId
  · rw [database]
  · rw [slipped] at member
    have old : ∀ w ∈ handed rest id ++ t.pending, w.documentId = t.documentId := fun w inside =>
      agrees.documents t.documentId w (behind ▸ inside)
    rcases List.mem_append.mp member with front | last
    · rcases List.mem_append.mp front with first | middle
      · exact old w (List.mem_append_left _ first)
      · obtain ⟨key, inside, rfl⟩ := List.mem_map.mp middle
        exact of_decide_eq_true (List.mem_filter.mp inside).2
    · exact old w (List.mem_append_right _ last)
  · refine ⟨?_, follows.timed, fun reading => ?_, fun unavailable => ?_, fun _ => ⟨?_, fun i => ?_⟩⟩
    · have handed' : handed s'.profile.transactions id = handed rest id ++ keys.map .deleteRejected := by
        rw [handed, transactions, own_submit, List.flatMap_append, writes, handed]
      rw [journal, handed']
    · rw [attached] at reading
      cases reading
    · rw [attached] at unavailable
      cases unavailable
    · rw [transactions, own_submit]
      exact fun member => (List.mem_append.mp member).elim
        (fun old => noLoad (List.mem_cons_of_mem _ old)) noMore
    · have looks : ∀ w ∈ t.pending, ∀ db db' : Database, db.queued t.documentId i =
          db'.queued t.documentId i → (db.apply w).queued t.documentId i =
            (db'.apply w).queued t.documentId i :=
        fun w _ _ _ same => Database.queued_apply_congr same w
      have silent : WriteBehind.Silent Database.apply (Database.queued t.documentId i)
          (keys.map .deleteRejected) := fun w member db => by
        obtain ⟨key, _, rfl⟩ := List.mem_map.mp member
        rfl
      have slip : Database.queued t.documentId i (((s.journals t.documentId).persisted ++ handed rest id ++
          keys.map PendingWrite.deleteRejected ++ t.pending).foldl Database.apply base) =
            Database.queued t.documentId i (((s.journals t.documentId).persisted ++ handed rest id ++
              t.pending).foldl Database.apply base) := WriteBehind.view_slip looks silent base
      have before : (s.journals t.documentId).log =
          ((s.journals t.documentId).persisted ++ handed rest id) ++ t.pending := by
        rw [WriteBehind.log, behind, List.append_assoc]
      have log : (s'.journals t.documentId).log = ((s.journals t.documentId).persisted ++
          handed rest id) ++ keys.map .deleteRejected ++ t.pending := by
        rw [journal, WriteBehind.log]
        simp only [List.append_assoc]
      rw [queue i, before, log]
      exact slip.symm

/-! ### Every event -/

theorem setJournal_same (s : JournaledProfile) (d : String) :
    s.setJournal d (s.journals d) = s.journals := by
  funext d'
  rw [setJournal]
  split
  · rw [‹d' = d›]
  · rfl

theorem Agrees.execute (agrees : Agrees base s) (here : s.profile.tabs id = some t)
    (head : s.profile.transactions = (id, x) :: rest)
    (profile : s'.profile = { s.profile with transactions := rest }.executed id t x)
    (journals : s'.journals = s.setJournal t.documentId
      (((s.journals t.documentId).persist x.writes.length).slip (handed rest id).length
        (x.follows s.profile.database t.documentId))) : Agrees base s' := by
  cases x with
  | load =>
      refine agrees.execute_load here head profile (journals.trans ?_)
      rw [Transaction.follows, WriteBehind.slip_nil, Transaction.writes, List.length_nil,
        WriteBehind.persist_zero]
      exact Transaction.noConfusion
  | flush batch =>
      refine agrees.execute_writes here head Transaction.noConfusion profile (journals.trans ?_)
      rw [Transaction.follows, WriteBehind.slip_nil]
      exact Transaction.noConfusion
  | readRejected =>
      refine agrees.execute_readRejected here head profile (journals.trans ?_)
      rw [Transaction.writes, List.length_nil, WriteBehind.persist_zero]
  | deleteRejected keys =>
      refine agrees.execute_writes here head Transaction.noConfusion profile (journals.trans ?_)
      rw [Transaction.follows, WriteBehind.slip_nil]
      exact Transaction.noConfusion

theorem own_absent (owned : ∀ x ∈ s.profile.transactions, (s.profile.tabs x.1).isSome = true)
    (absent : s.profile.tabs id = none) : own s.profile.transactions id = [] := by
  rw [own, List.filter_eq_nil_iff.mpr fun y member => ?_]
  · rfl
  · rw [decide_eq_true_eq]
    intro named
    have present := owned y member
    rw [named, absent] at present
    cases present

/-- A document is opened whose last tab has left nothing behind. -/
theorem Agrees.opens (agrees : Agrees base s) (absent : s.profile.tabs id = none) {d : String}
    (alone : ∀ i t, s.profile.tabs i = some t → t.documentId ≠ d)
    (profile : s'.profile = (s.profile.setTab id (some (.opened d))).submit id [.load])
    (journals : s'.journals = s.journals) : Agrees base s' := by
  have tabs : ∀ i, s'.profile.tabs i = if i = id then some (.opened d) else s.profile.tabs i :=
    fun i => by
      rw [profile]
      rfl
  have transactions : s'.profile.transactions =
      s.profile.transactions ++ [Transaction.load].map fun x => (id, x) := by
    rw [profile]
    rfl
  have database : s'.profile.database = s.profile.database := by
    rw [profile]
    rfl
  have mine : own s'.profile.transactions id = [.load] := by
    rw [transactions, own_submit, own_absent agrees.owned absent, List.nil_append]
  have found : ∀ i t₁, s'.profile.tabs i = some t₁ →
      (i = id ∧ t₁ = .opened d) ∨ (i ≠ id ∧ s.profile.tabs i = some t₁) := fun i t₁ found => by
    rw [tabs] at found
    by_cases this : i = id
    · rw [if_pos this] at found
      exact Or.inl ⟨this, (Option.some.inj found).symm⟩
    · rw [if_neg this] at found
      exact Or.inr ⟨this, found⟩
  refine ⟨fun d' => ?_, fun d' => ?_, fun i t₁ open' => ?_, fun i i' t₁ t₂ first second equal => ?_,
    fun d' empty => ?_, fun y member => ?_⟩
  · rw [database, journals]
    exact agrees.rows d'
  · rw [journals]
    exact agrees.documents d'
  · rcases found i t₁ open' with ⟨rfl, rfl⟩ | ⟨other, before⟩
    · refine ⟨?_, ⟨fun timer => (Bool.false_ne_true timer).elim, fun pending => absurd rfl pending⟩,
        fun _ => ⟨mine, rfl, rfl⟩, fun unavailable => ?_, fun attached => ?_⟩
      · rw [handed, mine, journals]
        exact agrees.absent d alone
      · cases unavailable
      · cases attached
    · refine (agrees.tabs i t₁ before).frame ?_ (by rw [journals])
      rw [transactions, own_submit_other _ other]
  · rcases found i t₁ first with ⟨rfl, rfl⟩ | ⟨_, first'⟩
    · rcases found i' t₂ second with ⟨rfl, rfl⟩ | ⟨_, second'⟩
      · rfl
      · exact absurd equal.symm (alone i' t₂ second')
    · rcases found i' t₂ second with ⟨rfl, rfl⟩ | ⟨_, second'⟩
      · exact absurd equal (alone i t₁ first')
      · exact agrees.alone i i' t₁ t₂ first' second' equal
  · rw [journals]
    refine agrees.absent d' fun i t₁ before => empty i t₁ ?_
    have other : i ≠ id := fun this => by
      rw [this, absent] at before
      cases before
    rw [tabs, if_neg other, before]
  · rw [transactions] at member
    rw [tabs]
    rcases List.mem_append.mp member with old | new
    · split
      · rfl
      · exact agrees.owned y old
    · obtain ⟨_, _, rfl⟩ := List.mem_map.mp new
      rw [if_pos rfl]
      rfl

/-- The storage is not to be had, or could not be read. -/
theorem Agrees.withdraw (agrees : Agrees base s) (here : s.profile.tabs id = some t)
    (reading : t.durable = .reading)
    (tabs : ∀ i, s'.profile.tabs i =
      if i = id then some { t with durable := .unavailable } else s.profile.tabs i)
    (owned : ∀ x ∈ s'.profile.transactions, x ∈ s.profile.transactions)
    (mine : own s'.profile.transactions id = [])
    (others : ∀ i, i ≠ id → own s'.profile.transactions i = own s.profile.transactions i)
    (database : s'.profile.database = s.profile.database) (journals : s'.journals = s.journals) :
    Agrees base s' := by
  have follows := agrees.tabs id t here
  have ⟨single, idle, _⟩ := follows.reading reading
  have behind : (s.journals t.documentId).behind = [] := by
    rw [follows.behind, handed, single, idle]
    rfl
  have same : Tab.documentId { t with durable := .unavailable } = t.documentId := rfl
  refine agrees.update here same tabs (journals.trans (s.setJournal_same t.documentId).symm)
    (fun y member => Or.inr (owned y member)) others ?_ (fun d _ => ?_) (fun w member => ?_) ?_
  · rw [database]
    exact agrees.rows t.documentId
  · rw [database]
  · rw [behind] at member
    cases member
  · refine ⟨?_, follows.timed, fun again => ?_, fun _ => ⟨mine, idle⟩, fun attached => ?_⟩
    · rw [same, journals, behind, handed, mine]
      exact idle.symm
    · cases again
    · cases attached

/-- A transaction without writes is given up. -/
theorem Agrees.abort (agrees : Agrees base s) (here : s.profile.tabs id = some t)
    (head : s.profile.transactions = (id, x) :: rest) (silent : x.writes = [])
    (profile : s'.profile = { s.profile with transactions := rest }.aborted id t x)
    (journals : s'.journals = s.journals) : Agrees base s' := by
  have follows := agrees.tabs id t here
  have mine : own s.profile.transactions id = x :: own rest id := by rw [head, own_cons]
  have others : ∀ i, i ≠ id → own rest i = own s.profile.transactions i := fun i other => by
    rw [head, own_cons_other other]
  by_cases load : x = .load
  · rw [load] at mine profile
    have reading := follows.reading_of_load (mine ▸ List.mem_cons_self)
    have ⟨single, _⟩ := follows.reading reading
    have transactions : s'.profile.transactions = rest := by
      rw [profile]
      rfl
    refine agrees.withdraw here reading (fun i => ?_) (fun y member => ?_) ?_ (fun i other => ?_) ?_
      journals
    · rw [profile]
      rfl
    · rw [head]
      rw [transactions] at member
      exact List.mem_cons_of_mem _ member
    · rw [transactions]
      exact (List.cons.inj (mine.symm.trans single)).2
    · rw [transactions, others i other]
    · rw [profile]
      rfl
  · have attached : t.durable = .attached := follows.attached_of_mem (mine ▸ List.mem_cons_self) load
    have ⟨noLoad, queue⟩ := follows.attached attached
    rw [mine] at noLoad
    have dropped : s'.profile = { s.profile with transactions := rest } := by
      rw [profile]
      cases x with
      | load => exact absurd rfl load
      | _ => rfl
    have transactions : s'.profile.transactions = rest := by rw [dropped]
    have tabs : s'.profile.tabs = s.profile.tabs := by rw [dropped]
    have database : s'.profile.database = s.profile.database := by rw [dropped]
    refine agrees.update here rfl (fun i => ?_) (journals.trans (s.setJournal_same t.documentId).symm)
      (fun y member => ?_) (fun i other => ?_) ?_ (fun d _ => ?_) (agrees.documents t.documentId) ?_
    · rw [tabs]
      by_cases this : i = id
      · rw [if_pos this, this, here]
      · rw [if_neg this]
    · rw [head]
      rw [transactions] at member
      exact Or.inr (List.mem_cons_of_mem _ member)
    · rw [transactions, others i other]
    · rw [database]
      exact agrees.rows t.documentId
    · rw [database]
    · refine ⟨?_, follows.timed, fun reading => ?_, fun unavailable => ?_, fun _ => ⟨?_, fun i => ?_⟩⟩
      · rw [journals, follows.behind_cons head, silent, transactions, List.nil_append]
      · rw [attached] at reading
        cases reading
      · rw [attached] at unavailable
        cases unavailable
      · rw [transactions]
        exact fun member => noLoad (List.mem_cons_of_mem _ member)
      · rw [journals]
        exact queue i

/-- What a tab has not handed over, and what was not executed, is gone with it. -/
theorem Agrees.crash (agrees : Agrees base s) (here : s.profile.tabs id = some t)
    (profile : s'.profile = (s.profile.setTab id none).forget id)
    (journals : s'.journals = s.setJournal t.documentId (s.journals t.documentId).crash) :
    Agrees base s' := by
  have tabs : ∀ i, s'.profile.tabs i = if i = id then none else s.profile.tabs i := fun i => by
    rw [profile]
    rfl
  have transactions : s'.profile.transactions = s.profile.transactions.filter fun x => x.1 ≠ id := by
    rw [profile]
    rfl
  have database : s'.profile.database = s.profile.database := by
    rw [profile]
    rfl
  have own' : s'.journals t.documentId = (s.journals t.documentId).crash := by
    rw [journals, setJournal_self]
  have journal : ∀ d, d ≠ t.documentId → s'.journals d = s.journals d := fun d other => by
    rw [journals]
    exact if_neg other
  have found : ∀ i t₁, s'.profile.tabs i = some t₁ → i ≠ id ∧ s.profile.tabs i = some t₁ :=
    fun i t₁ found => by
      rw [tabs] at found
      by_cases this : i = id
      · rw [if_pos this] at found
        cases found
      · rw [if_neg this] at found
        exact ⟨this, found⟩
  refine ⟨fun d => ?_, fun d w member => ?_, fun i t₁ open' => ?_,
    fun i i' t₁ t₂ first second equal => ?_, fun d empty => ?_, fun y member => ?_⟩
  · rw [database, agrees.rows d]
    by_cases this : d = t.documentId
    · rw [this, own', WriteBehind.crash]
    · rw [journal d this]
  · by_cases this : d = t.documentId
    · rw [this, own'] at member
      cases member
    · rw [journal d this] at member
      exact agrees.documents d w member
  · have ⟨other, before⟩ := found i t₁ open'
    have distinct : t₁.documentId ≠ t.documentId := fun equal =>
      other (agrees.alone i id t₁ t before here equal)
    refine (agrees.tabs i t₁ before).frame ?_ (journal _ distinct)
    rw [transactions, own_forget_other _ other]
  · have ⟨_, first'⟩ := found i t₁ first
    have ⟨_, second'⟩ := found i' t₂ second
    exact agrees.alone i i' t₁ t₂ first' second' equal
  · by_cases this : d = t.documentId
    · rw [this, own', WriteBehind.crash]
    · rw [journal d this]
      refine agrees.absent d fun i t₁ before => ?_
      by_cases same : i = id
      · rw [same, here] at before
        cases before
        exact fun equal => this equal.symm
      · exact empty i t₁ (by rw [tabs, if_neg same, before])
  · rw [transactions] at member
    have ⟨old, other⟩ := List.mem_filter.mp member
    rw [tabs, if_neg (of_decide_eq_true other)]
    exact agrees.owned y old

theorem step_ok {event : ProfileEvent} (moved : step s event = .ok s') :
    s.profile.step event = .ok s'.profile ∧ s'.journals = s.record event := by
  rw [step] at moved
  cases ran : s.profile.step event with
  | error halt =>
      rw [ran] at moved
      cases moved
  | ok profile =>
      rw [ran] at moved
      cases moved
      exact ⟨rfl, rfl⟩

/-- What every event preserves. -/
theorem Agrees.step (agrees : Agrees base s) {event : ProfileEvent} (alone : s.Alone event)
    (moved : JournaledProfile.step s event = .ok s') : Agrees base s' := by
  have ⟨ran, journals⟩ := step_ok moved
  cases event with
  | opens id d =>
      rw [Profile.step] at ran
      by_cases taken : (s.profile.tabs id).isSome = true
      · rw [if_pos taken] at ran
        cases ran
      · rw [if_neg taken] at ran
        exact agrees.opens (Option.not_isSome_iff_eq_none.mp taken) alone (Except.ok.inj ran).symm journals
  | unavailable id =>
      rw [Profile.step] at ran
      cases here : s.profile.tabs id with
      | none =>
          rw [here] at ran
          cases ran
      | some t =>
          rw [here] at ran
          dsimp only at ran
          by_cases reading : t.durable = .reading
          · rw [if_pos reading] at ran
            have profile := (Except.ok.inj ran).symm
            have transactions : s'.profile.transactions =
                s.profile.transactions.filter fun x => x.1 ≠ id := by
              rw [profile]
              rfl
            refine agrees.withdraw here reading (fun i => ?_) (fun y member => ?_) ?_ (fun i other => ?_)
              ?_ journals
            · rw [profile]
              rfl
            · rw [transactions] at member
              exact (List.mem_filter.mp member).1
            · rw [transactions, own_forget]
            · rw [transactions, own_forget_other _ other]
            · rw [profile]
              rfl
          · rw [if_neg reading] at ran
            cases ran
  | call id nowMs c =>
      rw [Profile.step] at ran
      cases here : s.profile.tabs id with
      | none =>
          rw [here] at ran
          cases ran
      | some t =>
          rw [here] at ran
          dsimp only at ran
          by_cases reading : t.durable = .reading
          · rw [if_pos reading] at ran
            cases ran
          · rw [if_neg reading] at ran
            rw [record, here] at journals
            have ⟨schedules, entries⟩ := t.call_schedules nowMs c
            refine agrees.after here reading schedules (fun w member => Tab.scheduled_documentId member)
              (fun attached db same i => ?_) (fun detached => if_neg detached) (Except.ok.inj ran).symm
              journals
            have scheduled : t.scheduled nowMs c = c.writes t.documentId nowMs := if_pos attached
            rw [entries, scheduled]
            exact c.entries_queued same nowMs i
  | timer id nowMs =>
      rw [Profile.step] at ran
      cases here : s.profile.tabs id with
      | none =>
          rw [here] at ran
          cases ran
      | some t =>
          rw [here] at ran
          dsimp only at ran
          by_cases due : (t.flushTimer.any fun due => due ≤ nowMs) = true
          · rw [if_pos due] at ran
            have follows := agrees.tabs id t here
            have set' : t.flushTimer.isSome = true := by
              cases timer : t.flushTimer with
              | none =>
                  rw [timer] at due
                  cases due
              | some _ => rfl
            have waits := follows.timed.mp set'
            have attached : t.durable = .attached := by
              cases durable : t.durable with
              | attached => rfl
              | reading => exact absurd (follows.reading durable).2.1 waits
              | unavailable => exact absurd (follows.unavailable durable).2 waits
            refine agrees.after here (fun reading => ?_)
              (Tab.flush_schedules fun detached => absurd attached detached) (List.forall_mem_nil _)
              (fun _ db same i => same i) (fun _ => rfl) (Except.ok.inj ran).symm ?_
            · rw [attached] at reading
              cases reading
            · rw [WriteBehind.write, List.append_nil, setJournal_same]
              exact journals
          · rw [if_neg due] at ran
            cases ran
  | execute =>
      rw [Profile.step] at ran
      cases head : s.profile.transactions with
      | nil =>
          rw [head] at ran
          cases ran
      | cons first rest =>
          obtain ⟨id, x⟩ := first
          rw [head] at ran
          dsimp only at ran
          cases here : s.profile.tabs id with
          | none =>
              rw [here] at ran
              cases ran
          | some t =>
              rw [here] at ran
              rw [record, head] at journals
              dsimp only at journals
              rw [here] at journals
              exact agrees.execute here head (Except.ok.inj ran).symm journals
  | abort =>
      rw [Profile.step] at ran
      cases head : s.profile.transactions with
      | nil =>
          rw [head] at ran
          cases ran
      | cons first rest =>
          obtain ⟨id, x⟩ := first
          rw [head] at ran
          dsimp only at ran
          cases here : s.profile.tabs id with
          | none =>
              rw [here] at ran
              cases ran
          | some t =>
              rw [here] at ran
              have silent : x.writes = [] := alone (id, x) (by rw [head]; rfl)
              exact agrees.abort here head silent (Except.ok.inj ran).symm journals
  | crash id =>
      rw [Profile.step] at ran
      cases here : s.profile.tabs id with
      | none =>
          rw [here] at ran
          cases ran
      | some t =>
          rw [here] at ran
          rw [record, here] at journals
          exact agrees.crash here (Except.ok.inj ran).symm journals

/-! ### Runs -/

/-- A browser without tabs. -/
def started (base : Database) : JournaledProfile := ⟨⟨base, [], fun _ => none⟩, fun _ => .empty⟩

theorem started_agrees (base : Database) : Agrees base (started base) where
  rows _ := rfl
  documents _ _ member := by cases member
  tabs _ _ here := by cases here
  alone _ _ _ _ here := by cases here
  absent _ _ := rfl
  owned _ member := by cases member

/-- The rows of each document are the front of its journal; the queue of a tab is the whole journal, of
which the tab has handed over or keeps what is behind, and keeps something only while its timer is set. -/
def Kept (base : Database) (s : JournaledProfile) : Prop :=
  (∀ d, s.profile.database.rows d = (replay base (s.journals d).persisted).rows d) ∧
    ∀ id t, s.profile.tabs id = some t →
      (s.journals t.documentId).behind = handed s.profile.transactions id ++ t.pending ∧
      (t.flushTimer.isSome = true ↔ t.pending ≠ []) ∧
      (t.durable = .attached → ∀ i, UnackedQueue.get t.unacked i =
        (replay base (s.journals t.documentId).log).queued t.documentId i)

theorem Agrees.kept (agrees : Agrees base s) : s.Kept base := by
  refine ⟨agrees.rows, fun id t here => ?_⟩
  have follows := agrees.tabs id t here
  exact ⟨follows.behind, follows.timed, fun attached => (follows.attached attached).2⟩

/-- While each document is open in one tab at a time and no write is given up, the database is the front
of what was scheduled, and the queue in memory is all of it. -/
theorem queue_is_journal (base : Database) {events : List ProfileEvent}
    (alone : Run.Each JournaledProfile.step Alone (started base) events) :
    Run.Always JournaledProfile.step (Kept base) (started base) events := by
  have always : Run.Always JournaledProfile.step (Agrees base) (started base) events :=
    Run.always_of_each (fun s event s' agrees single moved => agrees.step single moved)
      (started_agrees base) alone
  exact always.imp fun s agrees => agrees.kept

/-- An operation that deletes a character. -/
def deletion : Operation := .delete ⟨⟨2, 1⟩, ⟨1, 1⟩⟩

/-- The operation is queued and flushed. -/
def flushed : List ProfileEvent :=
  [.opens 0 "a", .execute, .call 0 0 (.add deletion), .timer 0 200, .execute]

/-- The page is reloaded. -/
def reloaded : List ProfileEvent := [.crash 0, .opens 1 "a", .execute]

theorem flushed_reloaded_alone :
    Run.Each JournaledProfile.step Alone (started .empty) (flushed ++ reloaded) := by
  intro s₁ moved₁
  cases moved₁
  refine ⟨fun i t here => ?_, ?_⟩
  · cases here
  intro s₂ moved₂
  cases moved₂
  refine ⟨trivial, ?_⟩
  intro s₃ moved₃
  cases moved₃
  refine ⟨trivial, ?_⟩
  intro s₄ moved₄
  cases moved₄
  refine ⟨trivial, ?_⟩
  intro s₅ moved₅
  cases moved₅
  refine ⟨trivial, ?_⟩
  intro s₆ moved₆
  cases moved₆
  refine ⟨trivial, ?_⟩
  intro s₇ moved₇
  cases moved₇
  refine ⟨fun i t here => ?_, ?_⟩
  · cases i with
    | zero => cases here
    | succ i => cases here
  intro s₈ moved₈
  cases moved₈
  exact ⟨trivial, trivial⟩

theorem queue_is_journal_reload :
    Run.Always JournaledProfile.step (Kept .empty) (started .empty) (flushed ++ reloaded) :=
  queue_is_journal .empty flushed_reloaded_alone

/-! ### What is flushed -/

/-- A call does not add or acknowledge the operation. -/
def LeavesAlone (d : String) (id : Identifier) (s : JournaledProfile) : ProfileEvent → Prop
  | .call tab _ (.add op) => ∀ t, s.profile.tabs tab = some t → t.documentId = d → op.id ≠ id
  | .call tab _ (.ack acked) => ∀ t, s.profile.tabs tab = some t → t.documentId = d → acked ≠ id
  | _ => True

/-- What an event can do to a journal. -/
theorem record_cases (s : JournaledProfile) (event : ProfileEvent) (d : String) :
    s.record event d = s.journals d ∨
      (∃ tab nowMs c t, event = .call tab nowMs c ∧ s.profile.tabs tab = some t ∧ t.documentId = d ∧
        s.record event d = (s.journals d).write (t.scheduled nowMs c)) ∨
      (∃ n m, ∃ keys : List RowKey,
        s.record event d = ((s.journals d).persist n).slip m (keys.map .deleteRejected)) ∨
      s.record event d = (s.journals d).crash := by
  have elsewhere : ∀ {t : Tab} (b : WriteBehind PendingWrite), t.documentId ≠ d →
      s.setJournal t.documentId b d = s.journals d := fun b other => if_neg fun same => other same.symm
  cases event with
  | opens tab d => exact Or.inl rfl
  | unavailable tab => exact Or.inl rfl
  | timer tab nowMs => exact Or.inl rfl
  | abort => exact Or.inl rfl
  | call tab nowMs c =>
      rw [record]
      cases here : s.profile.tabs tab with
      | none => exact Or.inl rfl
      | some t =>
          by_cases this : t.documentId = d
          · refine Or.inr (Or.inl ⟨tab, nowMs, c, t, rfl, here, this, ?_⟩)
            rw [← this]
            exact s.setJournal_self _ _
          · exact Or.inl (elsewhere _ this)
  | execute =>
      rw [record]
      cases head : s.profile.transactions with
      | nil => exact Or.inl rfl
      | cons first rest =>
          obtain ⟨tab, x⟩ := first
          cases here : s.profile.tabs tab with
          | none =>
              dsimp only
              rw [here]
              exact Or.inl rfl
          | some t =>
              dsimp only
              rw [here]
              by_cases this : t.documentId = d
              · obtain ⟨keys, follows⟩ : ∃ keys : List RowKey, x.follows s.profile.database t.documentId =
                    keys.map .deleteRejected := by
                  cases x with
                  | readRejected => exact ⟨_, rfl⟩
                  | _ => exact ⟨[], rfl⟩
                refine Or.inr (Or.inr (Or.inl ⟨x.writes.length, (handed rest tab).length, keys, ?_⟩))
                rw [← follows, ← this]
                exact s.setJournal_self _ _
              · exact Or.inl (elsewhere _ this)
  | crash tab =>
      rw [record]
      cases here : s.profile.tabs tab with
      | none => exact Or.inl rfl
      | some t =>
          by_cases this : t.documentId = d
          · refine Or.inr (Or.inr (Or.inr ?_))
            rw [← this]
            exact s.setJournal_self _ _
          · exact Or.inl (elsewhere _ this)

/-- Nothing behind is about the operation, and the whole journal has this of it. -/
def Settled (base : Database) (d : String) (id : Identifier) (found : Option Operation)
    (s : JournaledProfile) : Prop :=
  (∀ w ∈ (s.journals d).behind, ¬ w.concerns d id) ∧
    (replay base (s.journals d).log).queued d id = found

theorem silent_of_unconcerned {d : String} {id : Identifier} {ws : List PendingWrite}
    (unconcerned : ∀ w ∈ ws, ¬ w.concerns d id) :
    WriteBehind.Silent Database.apply (Database.queued d id) ws :=
  fun w member db => Database.queued_apply_silent (unconcerned w member) db

theorem Settled.step {d : String} {id : Identifier} {found : Option Operation}
    (settled : Settled base d id found s) {event : ProfileEvent} (leaves : s.LeavesAlone d id event)
    (moved : JournaledProfile.step s event = .ok s') : Settled base d id found s' := by
  have ⟨_, journals⟩ := step_ok moved
  have ⟨unconcerned, whole⟩ := settled
  rw [Settled, journals]
  rcases s.record_cases event d with same | ⟨tab, nowMs, c, t, rfl, here, this, written⟩ |
    ⟨n, m, keys, persisted⟩ | crashed
  · rw [same]
    exact settled
  · have scheduled : ∀ w ∈ t.scheduled nowMs c, ¬ w.concerns d id := fun w member concerns => by
      rw [Tab.scheduled] at member
      split at member
      · cases c with
        | add op =>
            rw [List.mem_singleton.mp member] at concerns
            exact leaves t here this (RowKey.of_injective concerns).2
        | ack acked =>
            rw [List.mem_singleton.mp member] at concerns
            exact leaves t here this (RowKey.of_injective concerns).2
        | persistMeta lastServerSeq replicaId =>
            rw [List.mem_singleton.mp member] at concerns
            exact concerns
        | preserveRejected op reason detail =>
            rw [List.mem_singleton.mp member] at concerns
            exact concerns
        | discardRejected => cases member
      · cases member
    rw [written, WriteBehind.log_write, replay, List.foldl_append]
    refine ⟨fun w member => ?_, ?_⟩
    · rcases List.mem_append.mp member with old | new
      · exact unconcerned w old
      · exact scheduled w new
    · rw [WriteBehind.view_foldl_silent (silent_of_unconcerned scheduled)]
      exact whole
  · have deletes : ∀ w ∈ (keys.map .deleteRejected : List PendingWrite), ¬ w.concerns d id := by
      intro w member concerns
      obtain ⟨key, _, rfl⟩ := List.mem_map.mp member
      exact concerns
    set b := (s.journals d).persist n with hb
    have kept : ∀ w ∈ b.behind, ¬ w.concerns d id := fun w member =>
      unconcerned w (List.mem_of_mem_drop member)
    have before : b.log = (b.persisted ++ b.behind.take m) ++ b.behind.drop m := by
      rw [WriteBehind.log, List.append_assoc, List.take_append_drop]
    have after : (b.slip m (keys.map .deleteRejected)).log =
        (b.persisted ++ b.behind.take m) ++ keys.map .deleteRejected ++ b.behind.drop m := by
      rw [WriteBehind.slip, WriteBehind.log]
      simp only [List.append_assoc]
    have looks : ∀ w ∈ b.behind.drop m, ∀ db db' : Database, db.queued d id = db'.queued d id →
        (db.apply w).queued d id = (db'.apply w).queued d id :=
      fun w _ _ _ same => Database.queued_apply_congr same w
    rw [persisted]
    refine ⟨fun w member => ?_, ?_⟩
    · rcases List.mem_append.mp member with front | last
      · rcases List.mem_append.mp front with first | middle
        · exact kept w (List.mem_of_mem_take first)
        · exact deletes w middle
      · exact kept w (List.mem_of_mem_drop last)
    · rw [after, replay, WriteBehind.view_slip looks (silent_of_unconcerned deletes), ← before, hb,
        WriteBehind.log_persist]
      exact whole
  · rw [crashed]
    refine ⟨List.forall_mem_nil _, ?_⟩
    rw [WriteBehind.log_crash, replay, ← WriteBehind.view_log (silent_of_unconcerned unconcerned)]
    exact whole

/-- The record of an operation, in the database and in every queue of the document. -/
def Records (d : String) (id : Identifier) (found : Option Operation) (s : JournaledProfile) : Prop :=
  s.profile.database.queued d id = found ∧
    ∀ tab t, s.profile.tabs tab = some t → t.documentId = d → t.durable = .attached →
      UnackedQueue.get t.unacked id = found

theorem Settled.records {d : String} {id : Identifier} {found : Option Operation}
    (agrees : Agrees base s) (settled : Settled base d id found s) : s.Records d id found := by
  have ⟨unconcerned, whole⟩ := settled
  refine ⟨?_, fun tab t here this attached => ?_⟩
  · rw [Database.queued_rows (agrees.rows d), replay,
      ← WriteBehind.view_log (silent_of_unconcerned unconcerned)]
    exact whole
  · rw [((agrees.tabs tab t here).attached attached).2, this]
    exact whole

end JournaledProfile

end ConfluenceEditor
