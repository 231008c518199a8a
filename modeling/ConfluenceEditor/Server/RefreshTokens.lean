/-
Refresh tokens: rotation, theft detection and logout, one SQL statement after the other.

A rotation reads the row of the token it is shown, decides, marks the row used and inserts the
successor; a reuse and a logout revoke every row of the family. Any number of these calls are under
way at once and each statement is a step of its own. A token is known by its digest.

No statement looks again at what the decision rested on: the mark is set whether or not another
rotation has set it since, and the successor is inserted, not revoked, whether or not the family has
been revoked since. A token is rotated once, and never after a revocation of its family, in the runs
where neither happens.
-/

import ConfluenceEditor.Library.Run
import ConfluenceEditor.Library.Slots
import ConfluenceEditor.Library.Throwing
import Mathlib.Data.List.Basic
import Mathlib.Data.List.Pairwise

namespace ConfluenceEditor

open Run

/-! ### The table -/

structure RefreshTokenRow where
  id : Nat
  familyId : Nat
  userId : Nat
  tokenHash : Nat
  expiresAt : Nat
  usedAt : Option Nat
  revokedAt : Option Nat
  deriving DecidableEq, Repr

structure CreateRefreshTokenInput where
  familyId : Nat
  userId : Nat
  tokenHash : Nat
  expiresAt : Nat
  deriving DecidableEq, Repr

/-- The primary key and the digest are unique. -/
def insertRefreshToken (rows : List RefreshTokenRow) (id : Nat) (input : CreateRefreshTokenInput) :
    Except Unit (List RefreshTokenRow) :=
  if ∃ row ∈ rows, row.id = id ∨ row.tokenHash = input.tokenHash then .error ()
  else .ok (rows ++ [⟨id, input.familyId, input.userId, input.tokenHash, input.expiresAt,
    none, none⟩])

def findRefreshTokenByHash (rows : List RefreshTokenRow) (tokenHash : Nat) :
    Option RefreshTokenRow :=
  rows.find? fun row => row.tokenHash == tokenHash

def markRefreshTokenUsed (rows : List RefreshTokenRow) (tokenId now : Nat) :
    List RefreshTokenRow :=
  rows.map fun row => if row.id = tokenId then { row with usedAt := some now } else row

def revokeFamily (rows : List RefreshTokenRow) (familyId now : Nat) : List RefreshTokenRow :=
  rows.map fun row =>
    if row.familyId = familyId ∧ row.revokedAt = none then { row with revokedAt := some now }
    else row

/-! ### The calls -/

inductive RotateRefreshTokenResult where
  | rotated (userId tokenHash expiresAt : Nat)
  | invalid
  | reuseDetected (userId familyId : Nat)
  deriving DecidableEq, Repr

/-- A call of `rotateRefreshToken` or `revokeRefreshFamilyByRawToken`, by the statement it performs
next. -/
inductive AuthCall where
  | rotate (tokenHash : Nat)
  | marking (row : RefreshTokenRow)
  | inserting (row : RefreshTokenRow)
  | detected (row : RefreshTokenRow)
  | returned (result : RotateRefreshTokenResult)
  | logout (tokenHash : Nat)
  | leaving (row : RefreshTokenRow)
  | loggedOut
  | failed
  deriving DecidableEq, Repr

/-- What `rotateRefreshToken` decides on the row it has read. -/
def rotateFound (now : Nat) : Option RefreshTokenRow → AuthCall
  | none => .returned .invalid
  | some row =>
      if row.revokedAt.isSome then .returned .invalid
      else if row.expiresAt ≤ now then .returned .invalid
      else if row.usedAt.isSome then .detected row
      else .marking row

/-- What the callers see: a token of a family has been rotated, or the family is at an end. A reuse
counts as detected when the call that detected it returns; the family is revoked by then. -/
inductive AuthEvent where
  | rotated (tokenHash familyId : Nat)
  | reuseDetected (familyId : Nat)
  | loggedOut (familyId : Nat)
  deriving DecidableEq, Repr

structure AuthState where
  rows : List RefreshTokenRow
  calls : List AuthCall
  history : List AuthEvent
  deriving DecidableEq, Repr

inductive AuthLabel where
  /-- `createRefreshFamily`: one insertion, with a random family. -/
  | login (id familyId userId tokenHash now : Nat)
  | begin (call : AuthCall)
  /-- The next statement of a call, at a time. An insertion draws its identifier and its token. -/
  | statement (index now id tokenHash : Nat)
  | fails (index : Nat)
  deriving DecidableEq, Repr

namespace AuthState

def start : AuthState := ⟨[], [], []⟩

def setCall (s : AuthState) (index : Nat) (call : AuthCall) : AuthState :=
  { s with calls := s.calls.set index call }

section

variable (refreshTokenTtlMs : Nat)

/-- The statement that `call` performs next. -/
def statement (s : AuthState) (index now id tokenHash : Nat) (call : AuthCall) :
    Except Unit AuthState :=
  match call with
  | .rotate presented =>
      .ok (s.setCall index (rotateFound now (findRefreshTokenByHash s.rows presented)))
  | .marking row =>
      .ok { s.setCall index (.inserting row) with
        rows := markRefreshTokenUsed s.rows row.id now }
  | .inserting row => do
      let expiresAt := now + refreshTokenTtlMs
      let rows ← insertRefreshToken s.rows id ⟨row.familyId, row.userId, tokenHash, expiresAt⟩
      .ok { s.setCall index (.returned (.rotated row.userId tokenHash expiresAt)) with
        rows
        history := s.history ++ [.rotated row.tokenHash row.familyId] }
  | .detected row =>
      .ok { s.setCall index (.returned (.reuseDetected row.userId row.familyId)) with
        rows := revokeFamily s.rows row.familyId now
        history := s.history ++ [.reuseDetected row.familyId] }
  | .logout presented =>
      match findRefreshTokenByHash s.rows presented with
      | none => .ok (s.setCall index .loggedOut)
      | some row => .ok (s.setCall index (.leaving row))
  | .leaving row =>
      .ok { s.setCall index .loggedOut with
        rows := revokeFamily s.rows row.familyId now
        history := s.history ++ [.loggedOut row.familyId] }
  | .returned _ | .loggedOut | .failed => .error ()

def step (s : AuthState) : AuthLabel → Except Unit AuthState
  | .login id familyId userId tokenHash now => do
      if ∃ row ∈ s.rows, row.familyId = familyId then .error ()
      else
        let rows ← insertRefreshToken s.rows id
          ⟨familyId, userId, tokenHash, now + refreshTokenTtlMs⟩
        .ok { s with rows }
  | .begin (.rotate tokenHash) => .ok { s with calls := s.calls ++ [.rotate tokenHash] }
  | .begin (.logout tokenHash) => .ok { s with calls := s.calls ++ [.logout tokenHash] }
  | .begin _ => .error ()
  | .statement index now id tokenHash =>
      match s.calls[index]? with
      | none => .error ()
      | some call => statement refreshTokenTtlMs s index now id tokenHash call
  | .fails index => .ok (s.setCall index .failed)

end

end AuthState

/-! ### What the callers are promised -/

/-- The later event may follow the earlier one: a token is not rotated twice, and no token of a
family that is at an end is rotated. -/
def Follows : AuthEvent → AuthEvent → Prop
  | .rotated earlier _, .rotated later _ => earlier ≠ later
  | .reuseDetected ended, .rotated _ familyId => ended ≠ familyId
  | .loggedOut ended, .rotated _ familyId => ended ≠ familyId
  | _, .reuseDetected _ => True
  | _, .loggedOut _ => True

instance : DecidableRel Follows := fun earlier later => by
  cases earlier <;> cases later <;> unfold Follows <;> infer_instance

namespace AuthState

/-- Every token has been rotated at most once, and never after a reuse in its family was detected or
the family was revoked. -/
def SingleUse (s : AuthState) : Prop := s.history.Pairwise Follows

instance (s : AuthState) : Decidable s.SingleUse :=
  inferInstanceAs (Decidable (s.history.Pairwise Follows))

/-- The condition on a step: the row that a rotation marks is still unused, and the token whose
successor it inserts has not been revoked. -/
def Unraced (s : AuthState) : AuthLabel → Prop
  | .statement index _ _ _ =>
      match s.calls[index]? with
      | some (.marking row) => ∀ current ∈ s.rows, current.id = row.id → current.usedAt = none
      | some (.inserting row) => ∀ current ∈ s.rows, current.id = row.id → current.revokedAt = none
      | _ => True
  | _ => True

instance (s : AuthState) (label : AuthLabel) : Decidable (s.Unraced label) := by
  unfold Unraced
  split
  · split <;> infer_instance
  · infer_instance

end AuthState

/-! ### The statements on the table -/

/-- Rows are told apart by `key`. -/
def TellsApart (key : RefreshTokenRow → Nat) (rows : List RefreshTokenRow) : Prop :=
  ∀ row ∈ rows, ∀ other ∈ rows, key row = key other → row = other

/-- The two are states of one row: identifier, digest and family never change. -/
def SameToken (row current : RefreshTokenRow) : Prop :=
  current.id = row.id ∧ current.tokenHash = row.tokenHash ∧ current.familyId = row.familyId

theorem SameToken.refl (row : RefreshTokenRow) : SameToken row row := ⟨rfl, rfl, rfl⟩

theorem SameToken.trans {row middle current : RefreshTokenRow} (first : SameToken row middle)
    (second : SameToken middle current) : SameToken row current :=
  ⟨second.1.trans first.1, second.2.1.trans first.2.1, second.2.2.trans first.2.2⟩

/-- The statement rewrites rows one by one and keeps what names them; a row that has been used or
revoked stays so. -/
structure Rewrites (update : RefreshTokenRow → RefreshTokenRow) : Prop where
  same : ∀ row, SameToken row (update row)
  used : ∀ row, row.usedAt.isSome → (update row).usedAt.isSome
  revoked : ∀ row, row.revokedAt.isSome → (update row).revokedAt.isSome

theorem rewrites_mark (tokenId now : Nat) :
    Rewrites fun row => if row.id = tokenId then { row with usedAt := some now } else row := by
  refine ⟨fun row => ?_, fun row used => ?_, fun row revoked => ?_⟩
  · split_ifs <;> exact ⟨rfl, rfl, rfl⟩
  · split_ifs
    · rfl
    · exact used
  · split_ifs <;> exact revoked

theorem rewrites_revoke (familyId now : Nat) :
    Rewrites fun row =>
      if row.familyId = familyId ∧ row.revokedAt = none then { row with revokedAt := some now }
      else row := by
  refine ⟨fun row => ?_, fun row used => ?_, fun row revoked => ?_⟩
  · split_ifs <;> exact ⟨rfl, rfl, rfl⟩
  · split_ifs <;> exact used
  · split_ifs
    · rfl
    · exact revoked

theorem TellsApart.map {update : RefreshTokenRow → RefreshTokenRow} {key : RefreshTokenRow → Nat}
    (named : ∀ row, key (update row) = key row)
    {rows : List RefreshTokenRow} (apart : TellsApart key rows) : TellsApart key (rows.map update) := by
  intro row member other member' same
  obtain ⟨row, inside, rfl⟩ := List.mem_map.mp member
  obtain ⟨other, inside', rfl⟩ := List.mem_map.mp member'
  rw [named, named] at same
  rw [apart row inside other inside' same]

theorem mem_markRefreshTokenUsed {rows : List RefreshTokenRow} {tokenId now : Nat}
    {current : RefreshTokenRow} (member : current ∈ markRefreshTokenUsed rows tokenId now)
    (named : current.id = tokenId) : current.usedAt.isSome := by
  obtain ⟨row, -, rfl⟩ := List.mem_map.mp member
  by_cases marked : row.id = tokenId
  · rw [if_pos marked]
    rfl
  · rw [if_neg marked] at named
    exact absurd named marked

theorem mem_revokeFamily {rows : List RefreshTokenRow} {familyId now : Nat}
    {current : RefreshTokenRow} (member : current ∈ revokeFamily rows familyId now)
    (named : current.familyId = familyId) : current.revokedAt.isSome := by
  obtain ⟨row, -, rfl⟩ := List.mem_map.mp member
  by_cases revoked : row.familyId = familyId ∧ row.revokedAt = none
  · rw [if_pos revoked]
    rfl
  · rw [if_neg revoked] at named ⊢
    exact Option.isSome_iff_ne_none.mpr fun none => revoked ⟨named, none⟩

theorem insertRefreshToken_spec {rows rows' : List RefreshTokenRow} {id : Nat}
    {input : CreateRefreshTokenInput} (inserted : insertRefreshToken rows id input = .ok rows') :
    rows' = rows ++ [⟨id, input.familyId, input.userId, input.tokenHash, input.expiresAt,
      none, none⟩] ∧ ∀ row ∈ rows, row.id ≠ id ∧ row.tokenHash ≠ input.tokenHash := by
  unfold insertRefreshToken at inserted
  split_ifs at inserted with taken
  refine ⟨(Except.ok.inj inserted).symm, fun row member => ?_⟩
  constructor
  · intro same
    exact taken ⟨row, member, Or.inl same⟩
  · intro same
    exact taken ⟨row, member, Or.inr same⟩

theorem TellsApart.append {key : RefreshTokenRow → Nat} {rows : List RefreshTokenRow}
    {row : RefreshTokenRow} (apart : TellsApart key rows)
    (fresh : ∀ other ∈ rows, key other ≠ key row) : TellsApart key (rows ++ [row]) := by
  intro first member second member' same
  rcases List.mem_append.mp member with inside | new
  · rcases List.mem_append.mp member' with inside' | new'
    · exact apart first inside second inside' same
    · obtain rfl := List.mem_singleton.mp new'
      exact absurd same (fresh first inside)
  · obtain rfl := List.mem_singleton.mp new
    rcases List.mem_append.mp member' with inside' | new'
    · exact absurd same.symm (fresh second inside')
    · exact (List.mem_singleton.mp new').symm

/-! ### The invariant -/

/-- The row that a call has read. -/
def AuthCall.row? : AuthCall → Option RefreshTokenRow
  | .marking row | .inserting row | .detected row | .leaving row => some row
  | _ => none

/-- The event ends the family. -/
def AuthEvent.Ends (event : AuthEvent) (familyId : Nat) : Prop :=
  event = .reuseDetected familyId ∨ event = .loggedOut familyId

namespace AuthState

/-- What the statements keep in a run whose steps are not raced. -/
structure Safe (s : AuthState) : Prop where
  ids : TellsApart RefreshTokenRow.id s.rows
  hashes : TellsApart RefreshTokenRow.tokenHash s.rows
  /-- What a call has read is still there. -/
  known : ∀ call ∈ s.calls, ∀ row, call.row? = some row → ∃ current ∈ s.rows, SameToken row current
  /-- The token of a rotation that has marked it is used, and has not been rotated yet. -/
  claimed : ∀ (index : Nat) row, s.calls[index]? = some (.inserting row) →
    (∀ current ∈ s.rows, current.id = row.id → current.usedAt.isSome) ∧
      ∀ familyId, .rotated row.tokenHash familyId ∉ s.history
  /-- One rotation of a token at a time has marked it. -/
  single : ∀ (index other : Nat) row row', s.calls[index]? = some (.inserting row) →
    s.calls[other]? = some (.inserting row') → row.id = row'.id → index = other
  rotated : ∀ tokenHash familyId, .rotated tokenHash familyId ∈ s.history →
    ∃ current ∈ s.rows, current.tokenHash = tokenHash ∧ current.usedAt.isSome
  /-- Every row of a family that is at an end is revoked. -/
  ended : ∀ event ∈ s.history, ∀ familyId, event.Ends familyId →
    (∃ current ∈ s.rows, current.familyId = familyId) ∧
      ∀ current ∈ s.rows, current.familyId = familyId → current.revokedAt.isSome
  singleUse : s.SingleUse

theorem safe_start : start.Safe where
  ids := fun _ member => by cases member
  hashes := fun _ member => by cases member
  known := fun _ member => by cases member
  claimed := fun _ _ none => by simp [start] at none
  single := fun _ _ _ _ none => by simp [start] at none
  rotated := fun _ _ member => by cases member
  ended := fun _ member => by cases member
  singleUse := List.Pairwise.nil

/-- A call that holds no mark takes the place of another. -/
theorem Safe.setCall {s : AuthState} (safe : s.Safe) (index : Nat) {call : AuthCall}
    (unmarked : ∀ row, call ≠ .inserting row)
    (known : ∀ row, call.row? = some row → ∃ current ∈ s.rows, SameToken row current) :
    (s.setCall index call).Safe := by
  have inserting : ∀ (i : Nat) row, (s.calls.set index call)[i]? = some (.inserting row) →
      s.calls[i]? = some (.inserting row) := by
    intro i row found
    rcases Slots.of_set found with ⟨-, same⟩ | ⟨-, old⟩
    · exact absurd same.symm (unmarked row)
    · exact old
  refine
    { safe with
      known := ?_
      claimed := fun i row found => safe.claimed i row (inserting i row found)
      single := fun i j row row' found found' => ?_ }
  · intro other member row read
    rcases List.mem_or_eq_of_mem_set member with old | rfl
    · exact safe.known other old row read
    · exact known row read
  · exact safe.single i j row row' (inserting i row found) (inserting j row' found')

/-- A statement that rewrites rows. -/
theorem Safe.rewrite {s : AuthState} (safe : s.Safe) {update : RefreshTokenRow → RefreshTokenRow}
    (rewrites : Rewrites update) : { s with rows := s.rows.map update }.Safe where
  ids := safe.ids.map fun row => (rewrites.same row).1
  hashes := safe.hashes.map fun row => (rewrites.same row).2.1
  known := by
    intro call member row read
    obtain ⟨current, inside, same⟩ := safe.known call member row read
    exact ⟨update current, List.mem_map_of_mem inside, same.trans (rewrites.same current)⟩
  claimed := by
    intro index row found
    obtain ⟨used, unrotated⟩ := safe.claimed index row found
    refine ⟨fun current member named => ?_, unrotated⟩
    obtain ⟨before, inside, rfl⟩ := List.mem_map.mp member
    exact rewrites.used before (used before inside ((rewrites.same before).1.symm.trans named))
  single := safe.single
  rotated := by
    intro tokenHash familyId happened
    obtain ⟨current, inside, named, used⟩ := safe.rotated tokenHash familyId happened
    exact ⟨update current, List.mem_map_of_mem inside,
      (rewrites.same current).2.1.trans named, rewrites.used current used⟩
  ended := by
    intro event happened familyId ends
    obtain ⟨⟨current, inside, named⟩, all⟩ := safe.ended event happened familyId ends
    refine ⟨⟨update current, List.mem_map_of_mem inside,
      (rewrites.same current).2.2.trans named⟩, fun row member named' => ?_⟩
    obtain ⟨before, inside', rfl⟩ := List.mem_map.mp member
    exact rewrites.revoked before
      (all before inside' ((rewrites.same before).2.2.symm.trans named'))
  singleUse := safe.singleUse

/-- A rotation may mark its row when no other one has. -/
theorem Safe.mark {s : AuthState} (safe : s.Safe) {index now : Nat} {row : RefreshTokenRow}
    (found : s.calls[index]? = some (.marking row))
    (unused : ∀ current ∈ s.rows, current.id = row.id → current.usedAt = none) :
    { s.setCall index (.inserting row) with
      rows := markRefreshTokenUsed s.rows row.id now }.Safe := by
  have rewritten := safe.rewrite (rewrites_mark row.id now)
  obtain ⟨current, inside, same⟩ :=
    safe.known _ (List.mem_of_getElem? found) row rfl
  -- No rotation that has marked its token holds this one, for the row would be used.
  have alone : ∀ (i : Nat) row', s.calls[i]? = some (.inserting row') → row'.id ≠ row.id := by
    intro i row' held same'
    have used := (safe.claimed i row' held).1 current inside (same.1.trans same'.symm)
    rw [unused current inside same.1] at used
    cases used
  have fresh : ∀ familyId, .rotated row.tokenHash familyId ∉ s.history := by
    intro familyId happened
    obtain ⟨other, inside', named, used⟩ := safe.rotated row.tokenHash familyId happened
    obtain rfl := safe.hashes other inside' current inside (named.trans same.2.1.symm)
    rw [unused other inside same.1] at used
    cases used
  have cases_of : ∀ (i : Nat) row',
      (s.calls.set index (.inserting row))[i]? = some (.inserting row') →
      (i = index ∧ row' = row) ∨ (i ≠ index ∧ s.calls[i]? = some (.inserting row')) := by
    intro i row' held
    exact (Slots.of_set held).imp_left fun new => ⟨new.1, AuthCall.inserting.inj new.2⟩
  refine { rewritten with known := ?_, claimed := ?_, single := ?_ }
  · intro call member row' read
    rcases List.mem_or_eq_of_mem_set member with old | rfl
    · exact rewritten.known call old row' read
    · obtain rfl := Option.some.inj read
      exact rewritten.known _ (List.mem_of_getElem? found) row rfl
  · intro i row' held
    rcases cases_of i row' held with ⟨-, rfl⟩ | ⟨-, old⟩
    · exact ⟨fun _ member named => mem_markRefreshTokenUsed member named, fresh⟩
    · exact rewritten.claimed i row' old
  · intro i j row₁ row₂ held held' same'
    rcases cases_of i row₁ held with ⟨rfl, rfl⟩ | ⟨-, old⟩
    · rcases cases_of j row₂ held' with ⟨rfl, -⟩ | ⟨-, old'⟩
      · rfl
      · exact absurd same'.symm (alone j row₂ old')
    · rcases cases_of j row₂ held' with ⟨rfl, rfl⟩ | ⟨-, old'⟩
      · exact absurd same' (alone i row₁ old)
      · exact safe.single i j row₁ row₂ old old' same'

/-- A row of a family that is not at an end is inserted. -/
theorem Safe.insert {s : AuthState} (safe : s.Safe) {id : Nat} {input : CreateRefreshTokenInput}
    {rows : List RefreshTokenRow} (inserted : insertRefreshToken s.rows id input = .ok rows)
    (running : ∀ event ∈ s.history, ¬ event.Ends input.familyId) : { s with rows }.Safe := by
  obtain ⟨rfl, fresh⟩ := insertRefreshToken_spec inserted
  refine
    { ids := safe.ids.append fun row member => (fresh row member).1
      hashes := safe.hashes.append fun row member => (fresh row member).2
      known := ?_
      claimed := ?_
      single := safe.single
      rotated := ?_
      ended := ?_
      singleUse := safe.singleUse }
  · intro call member row read
    obtain ⟨current, inside, same⟩ := safe.known call member row read
    exact ⟨current, List.mem_append_left _ inside, same⟩
  · intro index row found
    obtain ⟨used, unrotated⟩ := safe.claimed index row found
    refine ⟨fun current member named => ?_, unrotated⟩
    rcases List.mem_append.mp member with inside | new
    · exact used current inside named
    · obtain rfl := List.mem_singleton.mp new
      obtain ⟨old, inside, same⟩ := safe.known _ (List.mem_of_getElem? found) row rfl
      exact absurd (same.1.trans named.symm) (fresh old inside).1
  · intro tokenHash familyId happened
    obtain ⟨current, inside, holds⟩ := safe.rotated tokenHash familyId happened
    exact ⟨current, List.mem_append_left _ inside, holds⟩
  · intro event happened familyId ends
    obtain ⟨⟨current, inside, named⟩, all⟩ := safe.ended event happened familyId ends
    refine ⟨⟨current, List.mem_append_left _ inside, named⟩, fun row member named' => ?_⟩
    rcases List.mem_append.mp member with inside' | new
    · exact all row inside' named'
    · obtain rfl := List.mem_singleton.mp new
      subst named'
      exact absurd ends (running event happened)

/-- A rotation returns: its token was not rotated before and its family is not at an end. -/
theorem Safe.returns {s : AuthState} (safe : s.Safe) {row : RefreshTokenRow}
    (used : ∃ current ∈ s.rows, current.tokenHash = row.tokenHash ∧ current.usedAt.isSome)
    (fresh : ∀ familyId, .rotated row.tokenHash familyId ∉ s.history)
    (alone : ∀ (i : Nat) row', s.calls[i]? = some (.inserting row') →
      row'.tokenHash ≠ row.tokenHash)
    (running : ∀ event ∈ s.history, ¬ event.Ends row.familyId) :
    { s with history := s.history ++ [AuthEvent.rotated row.tokenHash row.familyId] }.Safe := by
  refine { safe with claimed := ?_, rotated := ?_, ended := ?_, singleUse := ?_ }
  · intro i row' held
    obtain ⟨marked, unrotated⟩ := safe.claimed i row' held
    refine ⟨marked, fun familyId member => ?_⟩
    rcases List.mem_append.mp member with old | new
    · exact unrotated familyId old
    · exact alone i row' held (AuthEvent.rotated.inj (List.mem_singleton.mp new)).1
  · intro tokenHash familyId member
    rcases List.mem_append.mp member with old | new
    · exact safe.rotated tokenHash familyId old
    · obtain ⟨rfl, -⟩ := AuthEvent.rotated.inj (List.mem_singleton.mp new)
      exact used
  · intro event member familyId ends
    rcases List.mem_append.mp member with old | new
    · exact safe.ended event old familyId ends
    · obtain rfl := List.mem_singleton.mp new
      rcases ends with same | same <;> cases same
  · refine List.pairwise_append.mpr ⟨safe.singleUse, List.pairwise_singleton _ _, ?_⟩
    intro event member last new
    obtain rfl := List.mem_singleton.mp new
    cases event with
    | rotated tokenHash familyId =>
        intro same
        exact fresh familyId (same ▸ member)
    | reuseDetected familyId =>
        intro same
        exact running _ member (Or.inl (congrArg AuthEvent.reuseDetected same))
    | loggedOut familyId =>
        intro same
        exact running _ member (Or.inr (congrArg AuthEvent.loggedOut same))

/-- A family comes to its end when all its rows are revoked. -/
theorem Safe.finish {s : AuthState} (safe : s.Safe) {event : AuthEvent} {familyId : Nat}
    (ends : event.Ends familyId) (inhabited : ∃ current ∈ s.rows, current.familyId = familyId)
    (all : ∀ current ∈ s.rows, current.familyId = familyId → current.revokedAt.isSome) :
    { s with history := s.history ++ [event] }.Safe := by
  have unlike : ∀ tokenHash family, event ≠ .rotated tokenHash family := by
    intro tokenHash family same
    rcases ends with rfl | rfl <;> cases same
  have still : ∀ tokenHash family, .rotated tokenHash family ∈ s.history ++ [event] →
      .rotated tokenHash family ∈ s.history := by
    intro tokenHash family member
    rcases List.mem_append.mp member with old | new
    · exact old
    · exact absurd (List.mem_singleton.mp new).symm (unlike tokenHash family)
  refine { safe with claimed := ?_, rotated := ?_, ended := ?_, singleUse := ?_ }
  · intro i row held
    obtain ⟨marked, unrotated⟩ := safe.claimed i row held
    exact ⟨marked, fun family member => unrotated family (still _ _ member)⟩
  · intro tokenHash family member
    exact safe.rotated tokenHash family (still _ _ member)
  · intro event' member family ends'
    rcases List.mem_append.mp member with old | new
    · exact safe.ended event' old family ends'
    · obtain rfl := List.mem_singleton.mp new
      have same : family = familyId := by
        rcases ends with rfl | rfl <;> rcases ends' with same | same <;> cases same <;> rfl
      rw [same]
      exact ⟨inhabited, all⟩
  · refine List.pairwise_append.mpr ⟨safe.singleUse, List.pairwise_singleton _ _, ?_⟩
    intro earlier _ last new
    obtain rfl := List.mem_singleton.mp new
    rcases ends with rfl | rfl <;> cases earlier <;> exact trivial

theorem findRefreshTokenByHash_mem {rows : List RefreshTokenRow} {tokenHash : Nat}
    {row : RefreshTokenRow} (found : findRefreshTokenByHash rows tokenHash = some row) :
    row ∈ rows := List.mem_of_find?_eq_some found

/-- What the decision leads to holds no mark, and remembers the row that was read. -/
theorem rotateFound_cases (now : Nat) (found : Option RefreshTokenRow) :
    (∀ row, rotateFound now found ≠ .inserting row) ∧
      ∀ row, (rotateFound now found).row? = some row → found = some row := by
  cases found with
  | none => exact ⟨fun _ same => (by cases same), fun _ read => (by cases read)⟩
  | some row =>
      unfold rotateFound
      dsimp only
      split_ifs
      · exact ⟨fun _ same => (by cases same), fun _ read => (by cases read)⟩
      · exact ⟨fun _ same => (by cases same), fun _ read => (by cases read)⟩
      · exact ⟨fun _ same => (by cases same), fun _ read => read⟩
      · exact ⟨fun _ same => (by cases same), fun _ read => read⟩

/-- The family that a call has read is revoked, and the call is over. -/
theorem Safe.revoke {s : AuthState} (safe : s.Safe) {index now : Nat} {call done : AuthCall}
    {row : RefreshTokenRow} {event : AuthEvent} (found : s.calls[index]? = some call)
    (read : call.row? = some row) (unmarked : ∀ row, done ≠ .inserting row)
    (finished : done.row? = none) (ends : event.Ends row.familyId) :
    { s.setCall index done with
      rows := revokeFamily s.rows row.familyId now
      history := s.history ++ [event] }.Safe := by
  obtain ⟨current, inside, same⟩ := safe.known call (List.mem_of_getElem? found) row read
  have called := safe.setCall index unmarked fun row' read' => by
    rw [finished] at read'
    cases read'
  have rewritten := called.rewrite (rewrites_revoke row.familyId now)
  refine rewritten.finish ends ?_ fun _ member named => mem_revokeFamily member named
  exact ⟨_, List.mem_map_of_mem inside, ((rewrites_revoke row.familyId now).same current).2.2.trans
    same.2.2⟩

/-- Every statement keeps the invariant, when it is not raced. -/
theorem Safe.statement {s s' : AuthState} {ttl index now id tokenHash : Nat} {call : AuthCall}
    (safe : s.Safe) (found : s.calls[index]? = some call)
    (unraced : s.Unraced (.statement index now id tokenHash))
    (stepped : statement ttl s index now id tokenHash call = .ok s') : s'.Safe := by
  unfold Unraced at unraced
  dsimp only at unraced
  rw [found] at unraced
  cases call with
  | rotate presented =>
      obtain rfl := Except.ok.inj stepped
      obtain ⟨unmarked, read⟩ := rotateFound_cases now (findRefreshTokenByHash s.rows presented)
      exact safe.setCall index unmarked fun row same =>
        ⟨row, findRefreshTokenByHash_mem (read row same), .refl row⟩
  | marking row =>
      obtain rfl := Except.ok.inj stepped
      exact safe.mark found unraced
  | inserting row =>
      obtain ⟨current, inside, same⟩ := safe.known _ (List.mem_of_getElem? found) row rfl
      obtain ⟨marked, unrotated⟩ := safe.claimed index row found
      -- The token is not revoked, so its family is not at an end.
      have running : ∀ event ∈ s.history, ¬ event.Ends row.familyId := by
        intro event happened ends
        have revoked := (safe.ended event happened row.familyId ends).2 current inside same.2.2
        rw [unraced current inside same.1] at revoked
        cases revoked
      obtain ⟨rows, inserted, rest⟩ := Throwing.ok_of_bind stepped
      obtain rfl := Except.ok.inj rest
      have unmarked : ∀ row', AuthCall.returned (.rotated row.userId tokenHash (now + ttl)) ≠
          .inserting row' := fun _ same => by cases same
      have called := (safe.insert inserted running).setCall index unmarked
        fun _ read => by cases read
      refine called.returns ?_ unrotated ?_ running
      · obtain ⟨rfl, -⟩ := insertRefreshToken_spec inserted
        exact ⟨current, List.mem_append_left _ inside, same.2.1, marked current inside same.1⟩
      · intro i row' held named
        -- A second rotation of the token that has marked it would be this one.
        have old : s.calls[i]? = some (.inserting row') ∧ i ≠ index := by
          rcases Slots.of_set held with ⟨-, other⟩ | ⟨apart, before⟩
          · cases other
          · exact ⟨before, apart⟩
        obtain ⟨other, inside', same'⟩ := safe.known _ (List.mem_of_getElem? old.1) row' rfl
        have one : other = current :=
          safe.hashes other inside' current inside (same'.2.1.trans (named.trans same.2.1.symm))
        refine old.2 (safe.single i index row' row old.1 found ?_)
        rw [← same'.1, one, same.1]
  | detected row =>
      obtain rfl := Except.ok.inj stepped
      exact safe.revoke found rfl (fun _ same => by cases same) rfl (Or.inl rfl)
  | logout presented =>
      unfold AuthState.statement at stepped
      dsimp only at stepped
      cases read : findRefreshTokenByHash s.rows presented with
      | none =>
          rw [read] at stepped
          obtain rfl := Except.ok.inj stepped
          exact safe.setCall index (fun _ same => by cases same) fun _ same => by cases same
      | some row =>
          rw [read] at stepped
          obtain rfl := Except.ok.inj stepped
          refine safe.setCall index (fun _ same => by cases same) fun row' same => ?_
          obtain rfl := Option.some.inj same
          exact ⟨row, findRefreshTokenByHash_mem read, .refl row⟩
  | leaving row =>
      obtain rfl := Except.ok.inj stepped
      exact safe.revoke found rfl (fun _ same => by cases same) rfl (Or.inr rfl)
  | returned result => cases stepped
  | loggedOut => cases stepped
  | failed => cases stepped

/-- A call that begins holds nothing. -/
theorem Safe.begin {s : AuthState} (safe : s.Safe) {call : AuthCall}
    (unmarked : ∀ row, call ≠ .inserting row) (empty : call.row? = none) :
    { s with calls := s.calls ++ [call] }.Safe := by
  have older : ∀ (i : Nat) row, (s.calls ++ [call])[i]? = some (.inserting row) →
      s.calls[i]? = some (.inserting row) := by
    intro i row held
    rcases Slots.of_append held with ⟨-, new⟩ | ⟨-, old⟩
    · exact absurd new.symm (unmarked row)
    · exact old
  refine
    { safe with
      known := ?_
      claimed := fun i row held => safe.claimed i row (older i row held)
      single := fun i j row row' held held' =>
        safe.single i j row row' (older i row held) (older j row' held') }
  intro other member row read
  rcases List.mem_append.mp member with old | new
  · exact safe.known other old row read
  · obtain rfl := List.mem_singleton.mp new
    rw [empty] at read
    cases read

theorem Safe.kept {s s' : AuthState} {ttl : Nat} {label : AuthLabel} (safe : s.Safe)
    (unraced : s.Unraced label) (stepped : s.step ttl label = .ok s') : s'.Safe := by
  cases label with
  | login id familyId userId tokenHash now =>
      unfold AuthState.step at stepped
      dsimp only at stepped
      split_ifs at stepped with taken
      obtain ⟨rows, inserted, rest⟩ := Throwing.ok_of_bind stepped
      obtain rfl := Except.ok.inj rest
      refine safe.insert inserted fun event happened ends => ?_
      obtain ⟨current, inside, named⟩ := (safe.ended event happened familyId ends).1
      exact taken ⟨current, inside, named⟩
  | begin call =>
      cases call with
      | rotate tokenHash =>
          obtain rfl := Except.ok.inj stepped
          exact safe.begin (fun _ same => by cases same) rfl
      | logout tokenHash =>
          obtain rfl := Except.ok.inj stepped
          exact safe.begin (fun _ same => by cases same) rfl
      | marking row => cases stepped
      | inserting row => cases stepped
      | detected row => cases stepped
      | returned result => cases stepped
      | leaving row => cases stepped
      | loggedOut => cases stepped
      | failed => cases stepped
  | statement index now id tokenHash =>
      unfold AuthState.step at stepped
      dsimp only at stepped
      cases found : s.calls[index]? with
      | none => rw [found] at stepped; cases stepped
      | some call =>
          rw [found] at stepped
          exact safe.statement found unraced stepped
  | fails index =>
      obtain rfl := Except.ok.inj stepped
      exact safe.setCall index (fun _ same => by cases same) fun _ read => by cases read

/-! ### Tokens are used once where no step is raced -/

/-- A token is rotated, shown again, and its family is revoked with the successor in it. -/
def theftRun : List AuthLabel :=
  [.login 1 10 5 100 0, .begin (.rotate 100), .statement 0 1 0 0, .statement 0 1 0 0,
    .statement 0 1 2 200, .begin (.rotate 100), .statement 1 2 0 0, .statement 1 2 0 0,
    .begin (.rotate 200), .statement 2 3 0 0]

/-- Two rotations read the token before either marks it. -/
def twiceRun : List AuthLabel :=
  [.login 1 10 5 100 0, .begin (.rotate 100), .begin (.rotate 100), .statement 0 1 0 0,
    .statement 1 1 0 0, .statement 0 1 0 0, .statement 1 1 0 0, .statement 0 1 2 200,
    .statement 1 1 3 300]

/-- A logout comes between the two writes of a rotation, whose successor is rotated in its turn. -/
def outlivesLogoutRun : List AuthLabel :=
  [.login 1 10 5 100 0, .begin (.rotate 100), .statement 0 1 0 0, .statement 0 1 0 0,
    .begin (.logout 100), .statement 1 1 0 0, .statement 1 1 0 0, .statement 0 1 2 200,
    .begin (.rotate 200), .statement 2 2 0 0, .statement 2 2 0 0, .statement 2 2 3 300]

end AuthState

end ConfluenceEditor
