/-
Documents created with an idempotency key.

A request looks for the record of its key, creates a document when there is none that is younger than
a day, and saves the response. The three are separate statements, and the requests of one user with
one key and one body run them in any order. A record is never removed, and saving leaves one that is
there alone, be it expired.

A document is created once a day, and its requests all get it, in the runs in which no lookup is made
while another request is on its way from its own lookup to its save, nor while a document of the last
day has no record.
-/

import ConfluenceEditor.Library.Run
import ConfluenceEditor.Library.Slots
import ConfluenceEditor.Server.Gateway
import Mathlib.Data.List.Pairwise
import Mathlib.Algebra.GroupWithZero.Nat

namespace ConfluenceEditor

open Run

/-- `interval '24 hours'`, in milliseconds. -/
def IDEMPOTENCY_WINDOW : Nat := 86400000

def MAX_TITLE_LENGTH : Nat := 512

/-- The title of a request body: left out, a string, or a value of another type. -/
inductive RawTitle where
  | undefined
  | text (title : String)
  | other
  deriving DecidableEq, Repr

/-- The length of a string in UTF-16 code units. -/
def utf16Length (text : String) : Nat :=
  (text.toList.map fun c => if c.toNat < 0x10000 then 1 else 2).sum

def resolveTitleForCreate : RawTitle → Option String
  | .undefined => some "Untitled"
  | .text title => if utf16Length title > MAX_TITLE_LENGTH then none else some title
  | .other => none

structure DocumentSummary where
  id : Nat
  title : String
  ownerId : Nat
  role : DocumentRole
  createdAt : Nat
  updatedAt : Nat
  currentSeq : Nat
  deriving DecidableEq, Repr

/-- A row of `idempotency_keys`, for one user, endpoint and key. -/
structure IdempotencyRecord where
  requestBodyHash : Nat
  responseStatus : Nat
  responseBody : DocumentSummary
  createdAt : Nat
  deriving DecidableEq, Repr

/-- A record that is older than the window is as if it were not there. -/
def findIdempotencyRecord (row : Option IdempotencyRecord) (now : Nat) :
    Option IdempotencyRecord :=
  row.filter fun record => now < record.createdAt + IDEMPOTENCY_WINDOW

/-- `ON CONFLICT DO NOTHING`. -/
def saveIdempotencyRecord (row : Option IdempotencyRecord) (record : IdempotencyRecord) :
    Option IdempotencyRecord :=
  match row with
  | some row => some row
  | none => some record

inductive CreateDocumentOutcome where
  | validationFailed
  | idempotencyConflict
  | replay (status : Nat) (body : DocumentSummary)
  | created (body : DocumentSummary)
  deriving DecidableEq, Repr

/-- A call of `createDocumentForUser`, by the statement it performs next; `asked` is the time of its
lookup. -/
inductive CreateCall where
  | received
  | creating (title : String) (asked : Nat)
  | saving (body : DocumentSummary) (asked : Nat)
  | returned (outcome : CreateDocumentOutcome)
  | failed
  deriving DecidableEq, Repr

/-- The call has found no record and is not done. -/
def CreateCall.pending : CreateCall → Bool
  | .creating _ _ | .saving _ _ => true
  | _ => false

/-- A success response: the document it names, and when its request looked for the record. -/
structure Answer where
  asked : Nat
  id : Nat
  deriving DecidableEq, Repr

structure Creation where
  now : Nat
  row : Option IdempotencyRecord
  calls : List CreateCall
  /-- The documents that were created with the key, the newest last. -/
  created : List DocumentSummary
  answered : List Answer
  deriving DecidableEq, Repr

inductive CreationLabel where
  | tick (ms : Nat)
  | begin
  /-- The next statement of a call; a document gets a random identifier. -/
  | statement (index id : Nat)
  | fails (index : Nat)
  deriving DecidableEq, Repr

namespace Creation

def start : Creation := ⟨0, none, [], [], []⟩

def setCall (s : Creation) (index : Nat) (call : CreateCall) : Creation :=
  { s with calls := s.calls.set index call }

def answer (s : Creation) (index : Nat) (outcome : CreateDocumentOutcome) (asked id : Nat) :
    Creation :=
  { s.setCall index (.returned outcome) with answered := s.answered ++ [⟨asked, id⟩] }

section

-- The user, the body of the requests, and the digest of a body.
variable (ownerId : Nat) (rawTitle : RawTitle) (hashRequestBody : RawTitle → Nat)

/-- The statement that `call` performs next. -/
def statement (s : Creation) (index id : Nat) : CreateCall → Except Unit Creation
  | .received =>
      match resolveTitleForCreate rawTitle with
      | none => .ok (s.setCall index (.returned .validationFailed))
      | some title =>
          match findIdempotencyRecord s.row s.now with
          | some existing =>
              if existing.requestBodyHash ≠ hashRequestBody rawTitle then
                .ok (s.setCall index (.returned .idempotencyConflict))
              else
                .ok (s.answer index (.replay existing.responseStatus existing.responseBody) s.now
                  existing.responseBody.id)
          | none => .ok (s.setCall index (.creating title s.now))
  | .creating title asked =>
      if ∃ other ∈ s.created, other.id = id then .error ()
      else
        let body : DocumentSummary := ⟨id, title, ownerId, .owner, s.now, s.now, 0⟩
        .ok { s.setCall index (.saving body asked) with created := s.created ++ [body] }
  | .saving body asked =>
      .ok { s.answer index (.created body) asked body.id with
        row := saveIdempotencyRecord s.row ⟨hashRequestBody rawTitle, 201, body, s.now⟩ }
  | .returned _ | .failed => .error ()

def step (s : Creation) : CreationLabel → Except Unit Creation
  | .tick ms => .ok { s with now := s.now + ms }
  | .begin => .ok { s with calls := s.calls ++ [.received] }
  | .statement index id =>
      match s.calls[index]? with
      | none => .error ()
      | some call => statement ownerId rawTitle hashRequestBody s index id call
  | .fails index => .ok (s.setCall index .failed)

end

/-! ### What is promised, and when -/

/-- At most one document is created in a day after a creation, and every request that was made in
that day and succeeded got it. -/
structure OncePerDay (s : Creation) : Prop where
  apart : s.created.Pairwise fun earlier later =>
    earlier.createdAt + IDEMPOTENCY_WINDOW ≤ later.createdAt
  same : ∀ answer ∈ s.answered, ∀ body ∈ s.created, body.createdAt ≤ answer.asked →
    answer.asked < body.createdAt + IDEMPOTENCY_WINDOW → answer.id = body.id
  made : ∀ answer ∈ s.answered, ∃ body ∈ s.created, body.id = answer.id

instance (s : Creation) : Decidable s.OncePerDay :=
  decidable_of_iff (_ ∧ _ ∧ _)
    ⟨fun holds => ⟨holds.1, holds.2.1, holds.2.2⟩, fun holds => ⟨holds.1, holds.2, holds.3⟩⟩

/-- The document of the last day, if there is one, is that of the record. -/
def Recorded (s : Creation) : Prop :=
  ∀ body ∈ s.created, s.now < body.createdAt + IDEMPOTENCY_WINDOW →
    s.row.map (fun record => record.responseBody.id) = some body.id

instance (s : Creation) : Decidable s.Recorded :=
  inferInstanceAs (Decidable (∀ body ∈ s.created, _ → _))

/-- The condition on a step: when a request looks for the record, no other one is between its lookup
and its save, and a document that was created within the last day has its record. -/
def Settled (s : Creation) : CreationLabel → Prop
  | .statement index _ =>
      match s.calls[index]? with
      | some .received => (∀ call ∈ s.calls, call.pending = false) ∧ s.Recorded
      | _ => True
  | _ => True

instance (s : Creation) (label : CreationLabel) : Decidable (s.Settled label) := by
  unfold Settled
  split
  · split <;> infer_instance
  · infer_instance

/-! ### The invariant -/

/-- What a run whose lookups are settled keeps. -/
structure Tidy (s : Creation) : Prop where
  clock : ∀ body ∈ s.created, body.createdAt ≤ s.now
  ids : ∀ body ∈ s.created, ∀ other ∈ s.created, body.id = other.id → body = other
  /-- The record is that of a document, and not older. -/
  record : ∀ record, s.row = some record →
    ∃ body ∈ s.created, body.id = record.responseBody.id ∧ body.createdAt ≤ record.createdAt
  /-- One request at most is on its way from its lookup to its save. -/
  alone : ∀ (i j : Nat) call other, s.calls[i]? = some call → s.calls[j]? = some other →
    call.pending = true → other.pending = true → i = j
  /-- When it looked, there was no document of the last day, and every answer was older. -/
  creating : ∀ title asked, .creating title asked ∈ s.calls → asked ≤ s.now ∧
    (∀ body ∈ s.created, body.createdAt + IDEMPOTENCY_WINDOW ≤ asked) ∧
      ∀ answer ∈ s.answered, answer.asked < asked
  saving : ∀ body asked, .saving body asked ∈ s.calls → body ∈ s.created ∧
    asked ≤ body.createdAt ∧
      ∀ other ∈ s.created, other ≠ body → other.createdAt + IDEMPOTENCY_WINDOW ≤ asked
  /-- An answer is that of the request that created the document, or is read off the record. -/
  answers : ∀ answer ∈ s.answered, answer.asked ≤ s.now ∧
    ((∃ body ∈ s.created, answer.asked ≤ body.createdAt) ∨
      ∃ record, s.row = some record ∧ answer.asked < record.createdAt + IDEMPOTENCY_WINDOW)
  once : s.OncePerDay

theorem tidy_start : start.Tidy where
  clock := fun _ member => by cases member
  ids := fun _ member => by cases member
  record := fun _ none => by cases none
  alone := fun _ _ _ _ none => by simp [start] at none
  creating := fun _ _ member => by cases member
  saving := fun _ _ member => by cases member
  answers := fun _ member => by cases member
  once := ⟨List.Pairwise.nil, fun _ member => (by cases member), fun _ member => (by cases member)⟩

variable {s s' : Creation}

theorem findIdempotencyRecord_eq_none {row : Option IdempotencyRecord} {now : Nat}
    (missed : findIdempotencyRecord row now = none) {record : IdempotencyRecord}
    (there : row = some record) : record.createdAt + IDEMPOTENCY_WINDOW ≤ now := by
  rw [there] at missed
  unfold findIdempotencyRecord at missed
  by_contra young
  rw [Option.filter_some, if_pos (decide_eq_true (by omega))] at missed
  cases missed

theorem findIdempotencyRecord_eq_some {row : Option IdempotencyRecord} {now : Nat}
    {record : IdempotencyRecord} (found : findIdempotencyRecord row now = some record) :
    row = some record ∧ now < record.createdAt + IDEMPOTENCY_WINDOW := by
  unfold findIdempotencyRecord at found
  obtain ⟨there, young⟩ := Option.filter_eq_some_iff.mp found
  exact ⟨there, of_decide_eq_true young⟩

theorem mem_setCall {index : Nat} {call other : CreateCall}
    (member : other ∈ (s.setCall index call).calls) : other ∈ s.calls ∨ other = call :=
  List.mem_or_eq_of_mem_set member

/-- A call that is not pending takes the place of another. -/
theorem Tidy.setCall (tidy : s.Tidy) (index : Nat) {call : CreateCall}
    (idle : call.pending = false) : (s.setCall index call).Tidy := by
  have older : ∀ {other : CreateCall}, other.pending = true →
      other ∈ (s.setCall index call).calls → other ∈ s.calls := by
    intro other busy member
    rcases mem_setCall member with old | rfl
    · exact old
    · rw [idle] at busy
      cases busy
  have at_ : ∀ {i : Nat} {other : CreateCall}, other.pending = true →
      (s.calls.set index call)[i]? = some other → s.calls[i]? = some other := by
    intro i other busy found
    rcases Slots.of_set found with ⟨-, rfl⟩ | ⟨-, old⟩
    · rw [idle] at busy
      cases busy
    · exact old
  exact
    { tidy with
      alone := fun i j first second found found' busy busy' =>
        tidy.alone i j first second (at_ busy found) (at_ busy' found') busy busy'
      creating := fun title asked member => tidy.creating title asked (older rfl member)
      saving := fun body asked member => tidy.saving body asked (older rfl member)
      once := ⟨tidy.once.apart, tidy.once.same, tidy.once.made⟩ }

/-- A document of the last day has its record, which a lookup finds. -/
theorem Tidy.missed (tidy : s.Tidy) (recorded : s.Recorded)
    (missed : findIdempotencyRecord s.row s.now = none) :
    ∀ body ∈ s.created, body.createdAt + IDEMPOTENCY_WINDOW ≤ s.now := by
  intro body member
  by_contra young
  have named := recorded body member (by omega)
  obtain ⟨record, there, same⟩ := Option.map_eq_some_iff.mp named
  obtain ⟨made, member', named', older⟩ := tidy.record record there
  obtain rfl := tidy.ids made member' body member (named'.trans same)
  have old := findIdempotencyRecord_eq_none missed there
  omega

/-- A request that misses is the only one on its way. -/
theorem Tidy.miss (tidy : s.Tidy) {index : Nat} {title : String}
    (idle : ∀ call ∈ s.calls, call.pending = false) (recorded : s.Recorded)
    (missed : findIdempotencyRecord s.row s.now = none) :
    (s.setCall index (.creating title s.now)).Tidy := by
  have old := tidy.missed recorded missed
  have mine : ∀ {i : Nat} {other : CreateCall}, other.pending = true →
      (s.calls.set index (.creating title s.now))[i]? = some other → i = index := by
    intro i other busy found
    rcases Slots.of_set found with ⟨here, -⟩ | ⟨-, old⟩
    · exact here
    · rw [idle other (List.mem_of_getElem? old)] at busy
      cases busy
  refine
    { tidy with
      alone := fun i j first second found found' busy busy' =>
        (mine busy found).trans (mine busy' found').symm
      creating := ?_
      saving := ?_
      once := ⟨tidy.once.apart, tidy.once.same, tidy.once.made⟩ }
  · intro title' asked member
    rcases mem_setCall member with before | same
    · cases idle _ before
    · obtain ⟨rfl, rfl⟩ := CreateCall.creating.inj same
      refine ⟨Nat.le_refl _, old, fun answer answered => ?_⟩
      obtain ⟨past, source⟩ := tidy.answers answer answered
      -- An answer of this very moment would have left something that the lookup finds.
      by_contra late
      have window : 0 < IDEMPOTENCY_WINDOW := by decide
      rcases source with ⟨body, member', asked_le⟩ | ⟨record, there, young⟩
      · have before := old body member'
        have clock := tidy.clock body member'
        omega
      · have expired := findIdempotencyRecord_eq_none missed there
        omega
  · intro body asked member
    rcases mem_setCall member with before | same
    · cases idle _ before
    · cases same

/-- A replay names the document of the last day. -/
theorem Tidy.replay (tidy : s.Tidy) {index : Nat} {outcome : CreateDocumentOutcome}
    {record : IdempotencyRecord} (idle : ∀ call ∈ s.calls, call.pending = false)
    (recorded : s.Recorded) (found : findIdempotencyRecord s.row s.now = some record) :
    (s.answer index outcome s.now record.responseBody.id).Tidy := by
  obtain ⟨there, young⟩ := findIdempotencyRecord_eq_some found
  have called : (s.setCall index (.returned outcome)).Tidy := tidy.setCall index rfl
  have quiet : ∀ call, call.pending = true → call ∉ (s.setCall index (.returned outcome)).calls := by
    intro call busy member
    rcases mem_setCall member with before | rfl
    · rw [idle call before] at busy
      cases busy
    · cases busy
  refine { called with creating := ?_, answers := ?_, once := ?_ }
  · exact fun title asked member => absurd member (quiet _ rfl)
  · intro answer member
    rcases List.mem_append.mp member with old | new
    · exact tidy.answers answer old
    · obtain rfl := List.mem_singleton.mp new
      exact ⟨Nat.le_refl _, Or.inr ⟨record, there, young⟩⟩
  · refine ⟨tidy.once.apart, fun answer member body made since before => ?_,
      fun answer member => ?_⟩
    · rcases List.mem_append.mp member with old | new
      · exact tidy.once.same answer old body made since before
      · obtain rfl := List.mem_singleton.mp new
        have named := recorded body made before
        rw [there] at named
        exact Option.some.inj named
    · rcases List.mem_append.mp member with old | new
      · exact tidy.once.made answer old
      · obtain rfl := List.mem_singleton.mp new
        obtain ⟨body, made, named, -⟩ := tidy.record record there
        exact ⟨body, made, named⟩

/-- The request that is on its way creates its document. -/
theorem Tidy.create (tidy : s.Tidy) {index asked : Nat} {title : String} {body : DocumentSummary}
    (found : s.calls[index]? = some (.creating title asked))
    (fresh : ∀ other ∈ s.created, other.id ≠ body.id) (dated : body.createdAt = s.now) :
    { s.setCall index (.saving body asked) with created := s.created ++ [body] }.Tidy := by
  obtain ⟨past, spaced, answered⟩ := tidy.creating title asked (List.mem_of_getElem? found)
  have mine : ∀ {i : Nat} {other : CreateCall}, other.pending = true →
      (s.calls.set index (.saving body asked))[i]? = some other →
        i = index ∧ other = .saving body asked := by
    intro i other busy found'
    rcases Slots.of_set found' with written | ⟨apart, old⟩
    · exact written
    · exact absurd (tidy.alone i index other _ old found busy rfl) apart
  refine
    { clock := ?_
      ids := ?_
      record := ?_
      alone := fun i j first second found' found'' busy busy' =>
        (mine busy found').1.trans (mine busy' found'').1.symm
      creating := ?_
      saving := ?_
      answers := ?_
      once := ⟨?_, ?_, ?_⟩ }
  · intro other member
    rcases List.mem_append.mp member with old | new
    · exact tidy.clock other old
    · obtain rfl := List.mem_singleton.mp new
      exact Nat.le_of_eq dated
  · intro first member second member' same
    rcases List.mem_append.mp member with old | new
    · rcases List.mem_append.mp member' with old' | new'
      · exact tidy.ids first old second old' same
      · obtain rfl := List.mem_singleton.mp new'
        exact absurd same (fresh first old)
    · obtain rfl := List.mem_singleton.mp new
      rcases List.mem_append.mp member' with old' | new'
      · exact absurd same.symm (fresh second old')
      · exact (List.mem_singleton.mp new').symm
  · intro record there
    obtain ⟨made, member, holds⟩ := tidy.record record there
    exact ⟨made, List.mem_append_left _ member, holds⟩
  · intro title' asked' member
    obtain ⟨i, found'⟩ := List.mem_iff_getElem?.mp member
    cases (mine rfl found').2
  · intro body' asked' member
    obtain ⟨i, found'⟩ := List.mem_iff_getElem?.mp member
    obtain ⟨rfl, rfl⟩ := CreateCall.saving.inj (mine rfl found').2
    refine ⟨List.mem_append_right _ List.mem_cons_self, by omega, fun other member' apart => ?_⟩
    rcases List.mem_append.mp member' with old | new
    · exact spaced other old
    · exact absurd (List.mem_singleton.mp new) apart
  · intro answer member
    obtain ⟨past', source⟩ := tidy.answers answer member
    refine ⟨past', ?_⟩
    rcases source with ⟨made, member', holds⟩ | source
    · exact Or.inl ⟨made, List.mem_append_left _ member', holds⟩
    · exact Or.inr source
  · refine List.pairwise_append.mpr
      ⟨tidy.once.apart, List.pairwise_singleton _ _, fun earlier member later new => ?_⟩
    obtain rfl := List.mem_singleton.mp new
    have before := spaced earlier member
    omega
  · intro answer member other member' since before
    rcases List.mem_append.mp member' with old | new
    · exact tidy.once.same answer member other old since before
    · obtain rfl := List.mem_singleton.mp new
      have earlier := answered answer member
      omega
  · intro answer member
    obtain ⟨made, member', same⟩ := tidy.once.made answer member
    exact ⟨made, List.mem_append_left _ member', same⟩

/-- The request that is on its way saves its response and answers. -/
theorem Tidy.save (tidy : s.Tidy) {index asked : Nat} {body : DocumentSummary}
    {record : IdempotencyRecord} {outcome : CreateDocumentOutcome}
    (found : s.calls[index]? = some (.saving body asked)) (named : record.responseBody = body)
    (dated : record.createdAt = s.now) :
    { s.answer index outcome asked body.id with row := saveIdempotencyRecord s.row record }.Tidy := by
  obtain ⟨made, before, spaced⟩ := tidy.saving body asked (List.mem_of_getElem? found)
  have clock := tidy.clock body made
  have called : (s.setCall index (.returned outcome)).Tidy := tidy.setCall index rfl
  have quiet : ∀ call, call.pending = true → call ∉ (s.setCall index (.returned outcome)).calls := by
    intro call busy member
    obtain ⟨i, found'⟩ := List.mem_iff_getElem?.mp member
    rcases Slots.of_set found' with ⟨-, rfl⟩ | ⟨apart, old⟩
    · cases busy
    · exact apart (tidy.alone i index call _ old found busy rfl)
  refine { called with record := ?_, creating := ?_, answers := ?_, once := ?_ }
  · intro record' there
    cases row : s.row with
    | some old =>
        rw [row] at there
        obtain rfl := Option.some.inj there
        exact tidy.record old row
    | none =>
        rw [row] at there
        obtain rfl := Option.some.inj there
        exact ⟨body, made, congrArg DocumentSummary.id named.symm, by omega⟩
  · exact fun title asked' member => absurd member (quiet _ rfl)
  · intro answer member
    rcases List.mem_append.mp member with old | new
    · obtain ⟨past, source⟩ := tidy.answers answer old
      refine ⟨past, ?_⟩
      rcases source with source | ⟨record', there, young⟩
      · exact Or.inl source
      · refine Or.inr ⟨record', ?_, young⟩
        rw [there]
        rfl
    · obtain rfl := List.mem_singleton.mp new
      exact ⟨before.trans clock, Or.inl ⟨body, made, before⟩⟩
  · refine ⟨tidy.once.apart, fun answer member other made' since young => ?_,
      fun answer member => ?_⟩
    · rcases List.mem_append.mp member with old | new
      · exact tidy.once.same answer old other made' since young
      · obtain rfl := List.mem_singleton.mp new
        by_contra different
        have far := spaced other made' fun same => different (congrArg DocumentSummary.id same.symm)
        exact absurd young (Nat.not_lt.mpr far)
    · rcases List.mem_append.mp member with old | new
      · exact tidy.once.made answer old
      · obtain rfl := List.mem_singleton.mp new
        exact ⟨body, made, rfl⟩

variable {ownerId : Nat} {rawTitle : RawTitle} {hashRequestBody : RawTitle → Nat}

/-- Every statement keeps the invariant, when lookups are settled. -/
theorem Tidy.statement (tidy : s.Tidy) {index id : Nat} {call : CreateCall}
    (found : s.calls[index]? = some call) (settled : s.Settled (.statement index id))
    (stepped : statement ownerId rawTitle hashRequestBody s index id call = .ok s') : s'.Tidy := by
  unfold Settled at settled
  dsimp only at settled
  rw [found] at settled
  unfold Creation.statement at stepped
  cases call with
  | received =>
      obtain ⟨idle, recorded⟩ := settled
      dsimp only at stepped
      cases title : resolveTitleForCreate rawTitle with
      | none =>
          rw [title] at stepped
          obtain rfl := Except.ok.inj stepped
          exact tidy.setCall index rfl
      | some title =>
          rw [title] at stepped
          dsimp only at stepped
          cases looked : findIdempotencyRecord s.row s.now with
          | none =>
              rw [looked] at stepped
              obtain rfl := Except.ok.inj stepped
              exact tidy.miss idle recorded looked
          | some existing =>
              rw [looked] at stepped
              dsimp only at stepped
              split_ifs at stepped with other
              · obtain rfl := Except.ok.inj stepped
                exact tidy.setCall index rfl
              · obtain rfl := Except.ok.inj stepped
                exact tidy.replay idle recorded looked
  | creating title asked =>
      dsimp only at stepped
      split_ifs at stepped with taken
      obtain rfl := Except.ok.inj stepped
      exact tidy.create found (fun other member same => taken ⟨other, member, same⟩) rfl
  | saving body asked =>
      obtain rfl := Except.ok.inj stepped
      exact tidy.save found rfl rfl
  | returned outcome => cases stepped
  | failed => cases stepped

theorem Tidy.kept (tidy : s.Tidy) {label : CreationLabel} (settled : s.Settled label)
    (stepped : s.step ownerId rawTitle hashRequestBody label = .ok s') : s'.Tidy := by
  cases label with
  | tick ms =>
      obtain rfl := Except.ok.inj stepped
      exact
        { tidy with
          clock := fun body member => (tidy.clock body member).trans (Nat.le_add_right _ _)
          creating := fun title asked member =>
            ⟨(tidy.creating title asked member).1.trans (Nat.le_add_right _ _),
              (tidy.creating title asked member).2⟩
          answers := fun answer member =>
            ⟨(tidy.answers answer member).1.trans (Nat.le_add_right _ _),
              (tidy.answers answer member).2⟩
          once := ⟨tidy.once.apart, tidy.once.same, tidy.once.made⟩ }
  | begin =>
      obtain rfl := Except.ok.inj stepped
      have older : ∀ {i : Nat} {other : CreateCall}, other.pending = true →
          (s.calls ++ [.received])[i]? = some other → s.calls[i]? = some other := by
        intro i other busy found
        rcases Slots.of_append found with ⟨-, rfl⟩ | ⟨-, old⟩
        · cases busy
        · exact old
      have before : ∀ {other : CreateCall}, other.pending = true →
          other ∈ s.calls ++ [.received] → other ∈ s.calls := by
        intro other busy member
        obtain ⟨i, found⟩ := List.mem_iff_getElem?.mp member
        exact List.mem_of_getElem? (older busy found)
      exact
        { tidy with
          alone := fun i j first second found found' busy busy' =>
            tidy.alone i j first second (older busy found) (older busy' found') busy busy'
          creating := fun title asked member => tidy.creating title asked (before rfl member)
          saving := fun body asked member => tidy.saving body asked (before rfl member)
          once := ⟨tidy.once.apart, tidy.once.same, tidy.once.made⟩ }
  | statement index id =>
      unfold Creation.step at stepped
      dsimp only at stepped
      cases found : s.calls[index]? with
      | none => rw [found] at stepped; cases stepped
      | some call =>
          rw [found] at stepped
          exact tidy.statement found settled stepped
  | fails index =>
      obtain rfl := Except.ok.inj stepped
      exact tidy.setCall index rfl

/-! ### One document a day where lookups are settled -/

/-- A request, and its repetition an hour later. -/
def repeatedRun : List CreationLabel :=
  [.begin, .statement 0 7, .statement 0 7, .statement 0 7, .tick 3600000, .begin, .statement 1 8]

/-- Two requests look for the record before either saves one. -/
def togetherRun : List CreationLabel :=
  [.begin, .begin, .statement 0 7, .statement 1 8, .statement 0 7, .statement 1 8, .statement 0 7,
    .statement 1 8]

/-- A request a day after the record was saved, and its repetition. -/
def expiredRun : List CreationLabel :=
  [.begin, .statement 0 7, .statement 0 7, .statement 0 7, .tick 86400000, .begin, .statement 1 8,
    .statement 1 8, .statement 1 8, .begin, .statement 2 9, .statement 2 9, .statement 2 9]

end Creation

end ConfluenceEditor
