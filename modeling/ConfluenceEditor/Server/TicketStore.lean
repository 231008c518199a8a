/-
The tickets that admit a connection.

`InMemoryTicketStore` follows the source: a map from tickets to records, from which every `issue` first
takes out what is used or expired. A run is a list of events, each with the time at which it happens and
with the random part of the ticket that it issues. What the store holds is backed by the events so far
(`Backs`): every record by the event that issued it, and every unused one by the fact that its ticket was
not presented since. An accepted ticket is therefore accepted for the first time
(`tickets_are_single_use`).
-/

import Mathlib.Data.List.Nodup
import Mathlib.Logic.Function.Basic
import Mathlib.Tactic.Common

namespace ConfluenceEditor

def TICKET_PREFIX : String := "rt_"

/-- The random part is the encoding of 24 random bytes. -/
def generateTicketId (random : String) : String := TICKET_PREFIX ++ random

structure TicketRecord where
  documentId : String
  userId : String
  displayName : String
  expiresAtMs : Int
  used : Bool
  deriving DecidableEq, Repr

inductive ConsumeTicketOutcome where
  | ok (userId displayName : String)
  | notFound
  | alreadyUsed
  | expired
  | wrongDocument
  deriving DecidableEq, Repr

structure InMemoryTicketStore where
  tickets : String → Option TicketRecord

namespace InMemoryTicketStore

def new : InMemoryTicketStore := ⟨fun _ => none⟩

def set (s : InMemoryTicketStore) (ticket : String) (record : TicketRecord) : InMemoryTicketStore :=
  ⟨Function.update s.tickets ticket (some record)⟩

def pruneExpired (s : InMemoryTicketStore) (nowMs : Int) : InMemoryTicketStore :=
  ⟨fun ticket => (s.tickets ticket).filter fun record =>
    !(record.used || decide (record.expiresAtMs < nowMs))⟩

/-- The ticket with the time at which it expires. -/
def issue (s : InMemoryTicketStore) (random documentId userId displayName : String)
    (ttlMs nowMs : Int) : (String × Int) × InMemoryTicketStore :=
  let ticket := generateTicketId random
  let expiresAtMs := nowMs + ttlMs
  ((ticket, expiresAtMs),
    (s.pruneExpired nowMs).set ticket ⟨documentId, userId, displayName, expiresAtMs, false⟩)

def consume (s : InMemoryTicketStore) (ticket claimedDocumentId : String) (nowMs : Int) :
    ConsumeTicketOutcome × InMemoryTicketStore :=
  match s.tickets ticket with
  | none => (.notFound, s)
  | some record =>
      if record.used then (.alreadyUsed, s)
      else
        -- burned whichever failure follows
        let s' := s.set ticket { record with used := true }
        if record.expiresAtMs < nowMs then (.expired, s')
        else if record.documentId ≠ claimedDocumentId then (.wrongDocument, s')
        else (.ok record.userId record.displayName, s')

end InMemoryTicketStore

inductive TicketEvent where
  | issue (random documentId userId displayName : String) (ttlMs nowMs : Int)
  | consume (ticket claimedDocumentId : String) (nowMs : Int)
  deriving DecidableEq, Repr

/-- An event with the outcome of a presentation. -/
abbrev TicketEntry : Type := TicketEvent × Option ConsumeTicketOutcome

namespace TicketEvent

/-- The ticket that an event issues. -/
def issued : TicketEvent → Option String
  | issue random .. => some (generateTicketId random)
  | consume .. => none

/-- The event presents the ticket. -/
def Presents (ticket : String) : TicketEvent → Prop
  | issue .. => False
  | consume presented .. => presented = ticket

end TicketEvent

namespace InMemoryTicketStore

open TicketEvent

def perform (s : InMemoryTicketStore) : TicketEvent →
    Option ConsumeTicketOutcome × InMemoryTicketStore
  | .issue random documentId userId displayName ttlMs nowMs =>
      (none, (s.issue random documentId userId displayName ttlMs nowMs).2)
  | .consume ticket claimedDocumentId nowMs =>
      let (outcome, s') := s.consume ticket claimedDocumentId nowMs
      (some outcome, s')

/-- The events one after the other, each with its outcome. -/
def performAll : InMemoryTicketStore → List TicketEvent → List TicketEntry
  | _, [] => []
  | s, event :: events =>
      let (outcome, s') := s.perform event
      (event, outcome) :: performAll s' events

/-- The ticket is presented and accepted. -/
def Accepts (ticket : String) (entry : TicketEntry) : Prop :=
  entry.1.Presents ticket ∧ ∃ userId displayName, entry.2 = some (.ok userId displayName)

/-! ### What backs a record -/

/-- The record was issued, and it is used if it was presented since. -/
def Backed (past : List TicketEvent) (ticket : String) (record : TicketRecord) : Prop :=
  ∃ earlier since random ttlMs nowMs, past = earlier ++ .issue random record.documentId record.userId
      record.displayName ttlMs nowMs :: since ∧
    generateTicketId random = ticket ∧ record.expiresAtMs = nowMs + ttlMs ∧
    (record.used = false → ∀ event ∈ since, ¬ event.Presents ticket)

def Backs (s : InMemoryTicketStore) (past : List TicketEvent) : Prop :=
  ∀ ticket record, s.tickets ticket = some record → Backed past ticket record

theorem backs_new : new.Backs [] := fun _ _ found => by cases found

theorem tickets_set_self (s : InMemoryTicketStore) (ticket : String) (record : TicketRecord) :
    (s.set ticket record).tickets ticket = some record := Function.update_self ..

theorem tickets_set_of_ne (s : InMemoryTicketStore) {ticket ticket' : String} (other : ticket' ≠ ticket)
    (record : TicketRecord) : (s.set ticket record).tickets ticket' = s.tickets ticket' :=
  Function.update_of_ne other ..

variable {s s' : InMemoryTicketStore} {past : List TicketEvent} {ticket : String}
  {record : TicketRecord}

/-- Another event that does not present the ticket. -/
theorem Backed.apart (backed : Backed past ticket record) {event : TicketEvent}
    (other : ¬ event.Presents ticket) : Backed (past ++ [event]) ticket record := by
  have ⟨earlier, since, random, ttlMs, nowMs, whole, named, expiry, unpresented⟩ := backed
  refine ⟨earlier, since ++ [event], random, ttlMs, nowMs, ?_, named, expiry, fun unused e member => ?_⟩
  · rw [whole, List.append_assoc, List.cons_append]
  · rcases List.mem_append.mp member with old | new
    · exact unpresented unused e old
    · rw [List.mem_singleton.mp new]
      exact other

/-- A used record stays backed whatever happens. -/
theorem Backed.burned (backed : Backed past ticket record) (event : TicketEvent) :
    Backed (past ++ [event]) ticket { record with used := true } := by
  have ⟨earlier, since, random, ttlMs, nowMs, whole, named, expiry, _⟩ := backed
  refine ⟨earlier, since ++ [event], random, ttlMs, nowMs, ?_, named, expiry, fun unused => ?_⟩
  · rw [whole, List.append_assoc, List.cons_append]
  · cases unused

theorem Backs.pruneExpired (backs : s.Backs past) (nowMs : Int) : (s.pruneExpired nowMs).Backs past :=
  fun ticket record found => backs ticket record (Option.filter_eq_some_iff.mp found).1

theorem Backs.issue (backs : s.Backs past) (random documentId userId displayName : String)
    (ttlMs nowMs : Int) : (s.issue random documentId userId displayName ttlMs nowMs).2.Backs
      (past ++ [.issue random documentId userId displayName ttlMs nowMs]) := by
  intro ticket record found
  by_cases here : ticket = generateTicketId random
  · subst here
    cases found.symm.trans (tickets_set_self ..)
    exact ⟨past, [], random, ttlMs, nowMs, rfl, rfl, rfl, fun _ event member => by cases member⟩
  · have old := found.symm.trans (tickets_set_of_ne _ here _)
    exact (backs.pruneExpired nowMs ticket record old.symm).apart fun presented => presented

/-- What an accepted presentation says about the store, and that the store stays backed. -/
theorem Backs.consume (backs : s.Backs past) (ticket claimedDocumentId : String) (nowMs : Int) :
    (s.consume ticket claimedDocumentId nowMs).2.Backs
      (past ++ [.consume ticket claimedDocumentId nowMs]) := by
  have apart : ∀ ticket' record, s.tickets ticket' = some record → ticket' ≠ ticket →
      Backed (past ++ [.consume ticket claimedDocumentId nowMs]) ticket' record :=
    fun ticket' record found other => (backs ticket' record found).apart fun same => other same.symm
  have burns : ∀ record, s.tickets ticket = some record →
      (s.set ticket { record with used := true }).Backs
        (past ++ [.consume ticket claimedDocumentId nowMs]) := by
    intro record found ticket' record' found'
    by_cases here : ticket' = ticket
    · subst here
      cases found'.symm.trans (tickets_set_self ..)
      exact (backs ticket' record found).burned _
    · exact apart ticket' record' (found'.symm.trans (tickets_set_of_ne _ here _)).symm here
  rw [InMemoryTicketStore.consume]
  cases found : s.tickets ticket with
  | none =>
      intro ticket' record found'
      refine apart ticket' record found' fun same => ?_
      rw [same, found] at found'
      cases found'
  | some record =>
      by_cases used : record.used = true
      · show (if _ then _ else _ : ConsumeTicketOutcome × InMemoryTicketStore).2.Backs _
        rw [if_pos used]
        intro ticket' record' found'
        by_cases here : ticket' = ticket
        · subst here
          cases found.symm.trans found'
          have burned := (backs ticket' record found).burned
            (.consume ticket' claimedDocumentId nowMs)
          rwa [← used] at burned
        · exact apart ticket' record' found' here
      · show (if _ then _ else _ : ConsumeTicketOutcome × InMemoryTicketStore).2.Backs _
        rw [if_neg used]
        dsimp only
        split_ifs
        · exact burns record found
        · exact burns record found
        · exact burns record found

theorem Backs.perform (backs : s.Backs past) (event : TicketEvent) :
    (s.perform event).2.Backs (past ++ [event]) := by
  cases event with
  | issue random documentId userId displayName ttlMs nowMs =>
      exact backs.issue random documentId userId displayName ttlMs nowMs
  | consume ticket claimedDocumentId nowMs => exact backs.consume ticket claimedDocumentId nowMs

theorem consume_ok {claimedDocumentId userId displayName : String} {nowMs : Int}
    (accepted : (s.consume ticket claimedDocumentId nowMs).1 = .ok userId displayName) :
    ∃ expiresAtMs, nowMs ≤ expiresAtMs ∧
      s.tickets ticket = some ⟨claimedDocumentId, userId, displayName, expiresAtMs, false⟩ := by
  rw [InMemoryTicketStore.consume] at accepted
  cases found : s.tickets ticket with
  | none =>
      rw [found] at accepted
      cases accepted
  | some record =>
      rw [found] at accepted
      dsimp only at accepted
      split_ifs at accepted with used late wrong
      cases accepted
      refine ⟨record.expiresAtMs, Int.le_of_not_gt late, ?_⟩
      rw [← not_not.mp wrong, ← Bool.eq_false_iff.mpr used]

/-! ### Whole runs -/

theorem performAll_map_fst (s : InMemoryTicketStore) (events : List TicketEvent) :
    (s.performAll events).map Prod.fst = events := by
  induction events generalizing s with
  | nil => rfl
  | cons event events ih =>
      rw [performAll]
      exact congrArg (event :: ·) (ih _)

/-- The store in which an event of a run happens. -/
theorem Backs.reached (backs : s.Backs past) {events : List TicketEvent}
    {before after : List TicketEntry} {event : TicketEvent} {outcome : Option ConsumeTicketOutcome}
    (log : s.performAll events = before ++ (event, outcome) :: after) :
    ∃ s' : InMemoryTicketStore, s'.Backs (past ++ before.map Prod.fst) ∧
      (s'.perform event).1 = outcome := by
  induction before generalizing s past events with
  | nil =>
      cases events with
      | nil => cases log
      | cons first events =>
          rw [performAll] at log
          cases log
          refine ⟨s, ?_, rfl⟩
          show s.Backs (past ++ [])
          rwa [List.append_nil]
  | cons entry before ih =>
      cases events with
      | nil => cases log
      | cons first events =>
          rw [performAll] at log
          have ⟨same, rest⟩ := List.cons.inj log
          have ⟨s', backs', performed⟩ := ih (backs.perform first) rest
          refine ⟨s', ?_, performed⟩
          rw [List.map_cons, ← same, List.append_cons]
          exact backs'

/-- An accepted ticket was issued for this document, has not expired yet, and was not presented since. -/
theorem accepted_first {events : List TicketEvent} {before after : List TicketEntry}
    {ticket documentId userId displayName : String} {nowMs : Int}
    (log : new.performAll events =
      before ++ (.consume ticket documentId nowMs, some (.ok userId displayName)) :: after) :
    ∃ earlier since random ttlMs issuedAtMs, before.map Prod.fst = earlier ++
        .issue random documentId userId displayName ttlMs issuedAtMs :: since ∧
      generateTicketId random = ticket ∧ nowMs ≤ issuedAtMs + ttlMs ∧
      ∀ event ∈ since, ¬ event.Presents ticket := by
  have ⟨s, backs, performed⟩ := backs_new.reached log
  have ⟨expiresAtMs, inTime, found⟩ := consume_ok (Option.some.inj performed)
  have ⟨earlier, since, random, ttlMs, issuedAtMs, whole, named, expiry, unpresented⟩ :=
    backs ticket _ found
  exact ⟨earlier, since, random, ttlMs, issuedAtMs, whole, named, expiry ▸ inTime, unpresented rfl⟩

/-- No ticket is issued twice. -/
theorem not_issued_twice {events first middle rest : List TicketEvent} {event event' : TicketEvent}
    (fresh : (events.filterMap issued).Nodup)
    (whole : events = first ++ event :: (middle ++ event' :: rest)) {ticket : String}
    (issues : event.issued = some ticket) (issues' : event'.issued = some ticket) : False := by
  rw [whole, List.filterMap_append, List.filterMap_cons_some issues, List.filterMap_append,
    List.filterMap_cons_some issues'] at fresh
  have once := (List.nodup_cons.mp (List.nodup_append.mp fresh).2.1).1
  exact once (List.mem_append_right _ List.mem_cons_self)

/-- Two parts of a run that end where the same ticket is issued are one. -/
theorem issued_once {events first second rest rest' : List TicketEvent} {event event' : TicketEvent}
    (fresh : (events.filterMap issued).Nodup) (one : events = first ++ event :: rest)
    (other : events = second ++ event' :: rest') {ticket : String} (issues : event.issued = some ticket)
    (issues' : event'.issued = some ticket) : first = second := by
  have split : first ++ event :: rest = second ++ event' :: rest' := one.symm.trans other
  rcases List.append_eq_append_iff.mp split with ⟨middle, more, tail⟩ | ⟨middle, more, tail⟩
  · cases middle with
    | nil => rw [more, List.append_nil]
    | cons e middle =>
        have rest_eq : rest = middle ++ event' :: rest' := (List.cons.inj tail).2
        rw [rest_eq] at one
        exact (not_issued_twice fresh one issues issues').elim
  · cases middle with
    | nil => rw [more, List.append_nil]
    | cons e middle =>
        have rest_eq : rest' = middle ++ event :: rest := (List.cons.inj tail).2
        rw [rest_eq] at other
        exact (not_issued_twice fresh other issues' issues).elim

/-- A ticket that was accepted is not accepted later. -/
theorem accepted_once {events : List TicketEvent} (fresh : (events.filterMap issued).Nodup)
    {before middle after : List TicketEntry} {ticket documentId userId displayName documentId'
      userId' displayName' : String} {nowMs nowMs' : Int}
    (log : new.performAll events = before ++
      (.consume ticket documentId nowMs, some (.ok userId displayName)) :: (middle ++
      (.consume ticket documentId' nowMs', some (.ok userId' displayName')) :: after)) : False := by
  have ⟨earlier, since, random, ttlMs, issuedAtMs, whole, named, _, _⟩ := accepted_first log
  rw [← List.cons_append, ← List.append_assoc] at log
  have ⟨earlier', since', random', ttlMs', issuedAtMs', whole', named', _, unpresented⟩ :=
    accepted_first log
  have events_eq := (performAll_map_fst new events).symm
  rw [log, List.map_append, whole', List.append_assoc, List.cons_append] at events_eq
  have events_eq' := events_eq
  rw [← List.cons_append, ← List.append_assoc, ← whole', List.map_append, List.map_cons, whole,
    List.append_assoc, List.append_assoc, List.cons_append] at events_eq'
  have same := issued_once fresh events_eq events_eq' (congrArg some named') (congrArg some named)
  -- both were issued at one place, so that the first acceptance is since then
  rw [same] at whole'
  rw [List.map_append, List.map_cons, whole, List.append_assoc] at whole'
  have tails := List.append_cancel_left whole'
  have ⟨_, since_eq⟩ := List.cons.inj tails
  refine unpresented (.consume ticket documentId nowMs) ?_ rfl
  rw [← since_eq]
  exact List.mem_append_right _ List.mem_cons_self

/-- In every run with fresh tickets, an accepted ticket was issued for the document that it is presented
for and has not passed its expiry; it was not presented since it was issued, whatever the outcome; and it
is accepted nowhere else in the run. -/
theorem tickets_are_single_use {events : List TicketEvent}
    (fresh : (events.filterMap issued).Nodup) {before after : List TicketEntry}
    {ticket documentId userId displayName : String} {nowMs : Int}
    (log : new.performAll events =
      before ++ (.consume ticket documentId nowMs, some (.ok userId displayName)) :: after) :
    (∃ earlier since random ttlMs issuedAtMs, before.map Prod.fst = earlier ++
        .issue random documentId userId displayName ttlMs issuedAtMs :: since ∧
      generateTicketId random = ticket ∧ nowMs ≤ issuedAtMs + ttlMs ∧
      ∀ event ∈ since, ¬ event.Presents ticket) ∧
    ∀ entry ∈ before ++ after, ¬ Accepts ticket entry := by
  refine ⟨accepted_first log, fun entry member accepts => ?_⟩
  have ⟨presents, userId', displayName', accepted⟩ := accepts
  cases entry with
  | mk event outcome =>
      cases event with
      | issue => exact presents
      | consume ticket' documentId' nowMs' =>
          cases presents
          cases accepted
          rcases List.mem_append.mp member with earlier | later
          · have ⟨first, middle, split⟩ := List.append_of_mem earlier
            rw [split, List.append_assoc, List.cons_append] at log
            exact accepted_once fresh log
          · have ⟨middle, rest, split⟩ := List.append_of_mem later
            rw [split] at log
            exact accepted_once fresh log

/-- A ticket that is presented at the instant of its expiry is accepted. -/
theorem accepted_at_expiry : (performAll new
      [.issue "AAAA" "doc-1" "user-1" "Alice" 30000 1000, .consume "rt_AAAA" "doc-1" 31000] =
        [(.issue "AAAA" "doc-1" "user-1" "Alice" 30000 1000, none),
          (.consume "rt_AAAA" "doc-1" 31000, some (.ok "user-1" "Alice"))]) ∧
    ¬ (31000 : Int) < 1000 + 30000 :=
  ⟨by decide +kernel, by decide⟩

/-- The run with a second presentation, and one more ticket. -/
theorem tickets_are_single_use_twice :
    ∃ before after, performAll new
        [.issue "AAAA" "doc-1" "user-1" "Alice" 30000 1000, .consume "rt_AAAA" "doc-1" 1500,
          .issue "AAAB" "doc-1" "user-2" "Bob" 30000 1600, .consume "rt_AAAA" "doc-1" 1700] =
        before ++ (.consume "rt_AAAA" "doc-1" 1500, some (.ok "user-1" "Alice")) :: after ∧
      ∀ entry ∈ before ++ after, ¬ Accepts "rt_AAAA" entry := by
  have log : performAll new
      [.issue "AAAA" "doc-1" "user-1" "Alice" 30000 1000, .consume "rt_AAAA" "doc-1" 1500,
        .issue "AAAB" "doc-1" "user-2" "Bob" 30000 1600, .consume "rt_AAAA" "doc-1" 1700] =
      [(.issue "AAAA" "doc-1" "user-1" "Alice" 30000 1000, none)] ++
        (.consume "rt_AAAA" "doc-1" 1500, some (.ok "user-1" "Alice")) ::
          [(.issue "AAAB" "doc-1" "user-2" "Bob" 30000 1600, none),
            (.consume "rt_AAAA" "doc-1" 1700, some .notFound)] := by decide +kernel
  exact ⟨_, _, log, (tickets_are_single_use (by decide +kernel) log).2⟩

end InMemoryTicketStore

end ConfluenceEditor
