/-
The owner of a document: requests to grant, revoke, transfer and delete, statement by statement.

No statement reads the rows of two documents, so those of one are followed. A request reads the role
of its caller and writes in a later statement; a transfer and a deletion write in a transaction,
which takes row locks as it goes and whose writes the others see when it commits. A statement that
has to wait for a lock is not performed until the lock is free, and a transaction that fails, in a
deadlock for one, gives its locks back and leaves no trace.

The row locks protect a transfer from another one. The upsert of a grant and the deletion of a
revocation do not look again at what they write over, and the row they meet may by then be the
owner's, or the document deleted. `oneOwner_iff` says that nothing else can go wrong.
-/

import ConfluenceEditor.Library.Keyed
import ConfluenceEditor.Library.Run
import ConfluenceEditor.Library.Slots
import ConfluenceEditor.Server.Gateway

namespace ConfluenceEditor

open Run

structure DocumentRow where
  ownerId : Nat
  accessRevoked : Bool
  deriving DecidableEq, Repr

/-- A row of the document in `document_permissions`, whose primary key is its user. -/
structure PermissionRow where
  userId : Nat
  role : DocumentRole
  grantedBy : Nat
  deriving DecidableEq, Repr

abbrev Permissions := Keyed PermissionRow.userId

def isGrantableRole (role : DocumentRole) : Bool := role == .editor || role == .viewer

/-- A role that is not a role, and a new owner that is not a string, are `none`. -/
inductive PermissionRequest where
  | grant (callerId targetUserId : Nat) (rawRole : Option DocumentRole)
  | revoke (callerId targetUserId : Nat)
  | transfer (callerId : Nat) (rawNewOwnerId : Option Nat)
  | delete (callerId : Nat)
  deriving DecidableEq, Repr

def PermissionRequest.callerId : PermissionRequest → Nat
  | .grant callerId _ _ | .revoke callerId _ | .transfer callerId _ | .delete callerId => callerId

inductive PermissionOutcome where
  | ok
  | notFound
  | forbidden
  | validationFailed
  | userNotFound
  | targetNotFound
  | targetHasNoAccess
  | cannotRevokeOwner
  | cannotChangeOwnOwnerRole
  | failed
  deriving DecidableEq, Repr

/-- A request, by the statement it performs next. -/
inductive PermissionCall where
  | received (request : PermissionRequest)
  /-- `findUserById`, then the upsert. -/
  | findingGrantee (callerId targetUserId : Nat) (role : DocumentRole)
  | granting (callerId targetUserId : Nat) (role : DocumentRole)
  /-- The role of the target is read, then its row is deleted. -/
  | findingTarget (targetUserId : Nat)
  | revoking (targetUserId : Nat)
  /-- The transaction of `transferOwnership`. -/
  | findingNewOwner (callerId newOwnerId : Nat)
  | lockingOwner (callerId newOwnerId : Nat)
  | lockingTarget (callerId newOwnerId : Nat)
  | demoting (callerId newOwnerId : Nat)
  | promoting (callerId newOwnerId : Nat)
  | recording (callerId newOwnerId : Nat)
  | committing (callerId newOwnerId : Nat)
  /-- The transaction of `revokeDocumentAccess`; last, the users whose rows it has deleted. -/
  | revokingAccess
  | deletingRows
  | committingDeletion (deleted : List Nat)
  | done (outcome : PermissionOutcome)
  deriving DecidableEq, Repr

/-- The users whose rows the call's transaction has locked. -/
def PermissionCall.locks : PermissionCall → List Nat
  | .lockingTarget callerId _ => [callerId]
  | .demoting callerId newOwnerId | .promoting callerId newOwnerId
  | .recording callerId newOwnerId | .committing callerId newOwnerId => [callerId, newOwnerId]
  | .committingDeletion deleted => deleted
  | _ => []

/-- The call's transaction has written the document's own row. -/
def PermissionCall.locksDocument : PermissionCall → Bool
  | .committing _ _ | .deletingRows | .committingDeletion _ => true
  | _ => false

structure Ownership where
  document : Option DocumentRow
  permissions : Permissions
  calls : List PermissionCall

inductive OwnershipLabel where
  /-- `createDocument`, whose rows nobody can name before they are committed. -/
  | create (ownerId : Nat)
  | begin (request : PermissionRequest)
  | statement (index : Nat)
  | fails (index : Nat)
  deriving DecidableEq, Repr

namespace Ownership

def start : Ownership := ⟨none, .empty, []⟩

/-- `getUserRole`. -/
def getUserRole (s : Ownership) (userId : Nat) : Option DocumentRole :=
  (s.permissions.get userId).map PermissionRow.role

/-- No other call holds the lock on the user's row. -/
def rowFree (s : Ownership) (index userId : Nat) : Bool :=
  (s.calls.eraseIdx index).all fun other => userId ∉ other.locks

def documentFree (s : Ownership) (index : Nat) : Bool :=
  (s.calls.eraseIdx index).all fun other => !other.locksDocument

def setCall (s : Ownership) (index : Nat) (call : PermissionCall) : Ownership :=
  { s with calls := s.calls.set index call }

def finish (s : Ownership) (index : Nat) (outcome : PermissionOutcome) : Ownership :=
  s.setCall index (.done outcome)

/-- `UPDATE document_permissions SET role = ..., granted_by = ...` of one row. -/
def updateRole (permissions : Permissions) (userId : Nat) (role : DocumentRole) (grantedBy : Nat) :
    Permissions :=
  match permissions.get userId with
  | some _ => permissions.set ⟨userId, role, grantedBy⟩
  | none => permissions

/-- What a request does after it has read the role of its caller. -/
def checkCaller (role : Option DocumentRole) : PermissionRequest → PermissionCall
  | .grant callerId targetUserId rawRole =>
      match role with
      | none => .done .notFound
      | some .owner =>
          if targetUserId = callerId then .done .cannotChangeOwnOwnerRole
          else
            match rawRole with
            | none => .done .validationFailed
            | some granted =>
                if isGrantableRole granted then .findingGrantee callerId targetUserId granted
                else .done .validationFailed
      | some _ => .done .forbidden
  | .revoke _ targetUserId =>
      match role with
      | none => .done .notFound
      | some .owner => .findingTarget targetUserId
      | some _ => .done .forbidden
  | .transfer callerId rawNewOwnerId =>
      match role with
      | none => .done .notFound
      | some .owner =>
          match rawNewOwnerId with
          | none => .done .validationFailed
          | some newOwnerId => .findingNewOwner callerId newOwnerId
      | some _ => .done .forbidden
  | .delete _ =>
      match role with
      | none => .done .notFound
      | some .owner => .revokingAccess
      | some _ => .done .forbidden

/-- The row with the role `owner`; the index allows one. -/
def ownerRow (s : Ownership) : Option PermissionRow :=
  s.permissions.entries.find? fun row => row.role == .owner

section

-- The users that exist; none is ever deleted.
variable (users : Nat → Bool)

/-- The statement that `call` performs next. It is an error where it has to wait for a lock, or
breaks a constraint. -/
def statement (s : Ownership) (index : Nat) : PermissionCall → Except Unit Ownership
  | .received request =>
      .ok (s.setCall index (checkCaller (s.getUserRole request.callerId) request))
  | .findingGrantee callerId targetUserId role =>
      if users targetUserId then .ok (s.setCall index (.granting callerId targetUserId role))
      else .ok (s.finish index .userNotFound)
  | .granting callerId targetUserId role =>
      if s.document.isSome ∧ s.rowFree index targetUserId then
        .ok { s.finish index .ok with
          permissions := s.permissions.set ⟨targetUserId, role, callerId⟩ }
      else .error ()
  | .findingTarget targetUserId =>
      match s.getUserRole targetUserId with
      | none => .ok (s.finish index .targetNotFound)
      | some .owner => .ok (s.finish index .cannotRevokeOwner)
      | some _ => .ok (s.setCall index (.revoking targetUserId))
  | .revoking targetUserId =>
      if s.rowFree index targetUserId then
        .ok { s.finish index .ok with permissions := s.permissions.delete targetUserId }
      else .error ()
  | .findingNewOwner callerId newOwnerId =>
      if users newOwnerId then .ok (s.setCall index (.lockingOwner callerId newOwnerId))
      else .ok (s.finish index .userNotFound)
  | .lockingOwner callerId newOwnerId =>
      match s.ownerRow with
      | none => .ok (s.finish index .forbidden)
      | some row =>
          if s.rowFree index row.userId then
            if row.userId = callerId then .ok (s.setCall index (.lockingTarget callerId newOwnerId))
            else .ok (s.finish index .forbidden)
          else .error ()
  | .lockingTarget callerId newOwnerId =>
      match s.permissions.get newOwnerId with
      | none => .ok (s.finish index .targetHasNoAccess)
      | some _ =>
          if s.rowFree index newOwnerId then
            .ok (s.setCall index (.demoting callerId newOwnerId))
          else .error ()
  | .demoting callerId newOwnerId => .ok (s.setCall index (.promoting callerId newOwnerId))
  | .promoting callerId newOwnerId =>
      -- The index on the owner rows refuses a second one.
      if ∃ row ∈ s.permissions.entries,
          row.role = .owner ∧ row.userId ≠ callerId ∧ row.userId ≠ newOwnerId then .error ()
      else .ok (s.setCall index (.recording callerId newOwnerId))
  | .recording callerId newOwnerId =>
      if s.documentFree index then .ok (s.setCall index (.committing callerId newOwnerId))
      else .error ()
  | .committing callerId newOwnerId =>
      .ok { s.finish index .ok with
        document := s.document.map fun document => { document with ownerId := newOwnerId }
        permissions :=
          updateRole (updateRole s.permissions callerId .editor callerId) newOwnerId .owner callerId }
  | .revokingAccess =>
      if s.documentFree index then .ok (s.setCall index .deletingRows) else .error ()
  | .deletingRows =>
      if ∀ row ∈ s.permissions.entries, s.rowFree index row.userId then
        .ok (s.setCall index
          (.committingDeletion (s.permissions.entries.map PermissionRow.userId)))
      else .error ()
  | .committingDeletion deleted =>
      .ok { s.finish index .ok with
        document := s.document.map fun document => { document with accessRevoked := true }
        permissions := deleted.foldl Keyed.delete s.permissions }
  | .done _ => .error ()

def step (s : Ownership) : OwnershipLabel → Except Unit Ownership
  | .create ownerId =>
      match s.document with
      | none => .ok { s with
          document := some ⟨ownerId, false⟩
          permissions := s.permissions.set ⟨ownerId, .owner, ownerId⟩ }
      | some _ => .error ()
  | .begin request => .ok { s with calls := s.calls ++ [.received request] }
  | .statement index =>
      match s.calls[index]? with
      | none => .error ()
      | some call => statement users s index call
  | .fails index => .ok (s.finish index .failed)

end

/-! ### What is promised, and when -/

/-- The users whose rows have the role `owner`. -/
def owners (s : Ownership) : List Nat :=
  (s.permissions.entries.filter fun row => row.role == .owner).map PermissionRow.userId

/-- One row has the role `owner`, that of the user whom the document names; and a document whose
access was revoked has no rows. -/
def OneOwner (s : Ownership) : Prop :=
  match s.document with
  | none => True
  | some document =>
      if document.accessRevoked then s.permissions.entries = []
      else s.owners = [document.ownerId]

instance (s : Ownership) : Decidable s.OneOwner := by
  unfold OneOwner
  split
  · infer_instance
  · split <;> infer_instance

def accessRevoked (s : Ownership) : Bool := s.document.any DocumentRow.accessRevoked

/-- The condition on a step: the row that a grant or a revocation writes over is not the owner's, a
grant does not come after the deletion, and a deletion has seen every row when it commits. -/
def Unstale (s : Ownership) : OwnershipLabel → Prop
  | .statement index =>
      match s.calls[index]? with
      | some (.granting _ targetUserId _) =>
          s.accessRevoked = false ∧ s.getUserRole targetUserId ≠ some .owner
      | some (.revoking targetUserId) => s.getUserRole targetUserId ≠ some .owner
      | some (.committingDeletion deleted) =>
          ∀ row ∈ s.permissions.entries, row.userId ∈ deleted
      | _ => True
  | _ => True

instance (s : Ownership) (label : OwnershipLabel) : Decidable (s.Unstale label) := by
  unfold Unstale
  split
  · split <;> infer_instance
  · infer_instance

/-! ### The rows -/

theorem mem_updateRole {permissions : Permissions} {userId grantedBy : Nat} {role : DocumentRole}
    {row : PermissionRow} (other : row.userId ≠ userId) :
    row ∈ updateRole permissions userId role grantedBy ↔ row ∈ permissions := by
  unfold updateRole
  cases permissions.get userId with
  | none => exact Iff.rfl
  | some _ =>
      rw [Keyed.mem_set]
      constructor
      · rintro (rfl | ⟨inside, -⟩)
        · exact absurd rfl other
        · exact inside
      · exact fun inside => Or.inr ⟨inside, other⟩

/-- A row that is there has the new role afterwards. -/
theorem updateRole_self {permissions : Permissions} {userId grantedBy : Nat} {role : DocumentRole}
    {row old : PermissionRow} (present : old ∈ permissions) (named : old.userId = userId)
    (member : row ∈ updateRole permissions userId role grantedBy) (same : row.userId = userId) :
    row = ⟨userId, role, grantedBy⟩ := by
  unfold updateRole at member
  rw [Keyed.get_eq_some.mpr ⟨present, named⟩] at member
  rcases Keyed.mem_set.mp member with rfl | ⟨-, other⟩
  · rfl
  · exact absurd same other

theorem mem_updateRole_self {permissions : Permissions} {userId grantedBy : Nat}
    {role : DocumentRole} {old : PermissionRow} (present : old ∈ permissions)
    (named : old.userId = userId) :
    ⟨userId, role, grantedBy⟩ ∈ updateRole permissions userId role grantedBy := by
  unfold updateRole
  rw [Keyed.get_eq_some.mpr ⟨present, named⟩]
  exact Keyed.mem_set.mpr (Or.inl rfl)

theorem mem_deleteAll {permissions : Permissions} {deleted : List Nat} {row : PermissionRow} :
    row ∈ deleted.foldl Keyed.delete permissions ↔ row ∈ permissions ∧ row.userId ∉ deleted := by
  induction deleted generalizing permissions with
  | nil => simp
  | cons userId deleted ih =>
      rw [List.foldl_cons, ih, Keyed.mem_delete, List.mem_cons, not_or, and_assoc]

variable {s : Ownership}

theorem getUserRole_eq_some {userId : Nat} {role : DocumentRole} :
    s.getUserRole userId = some role ↔
      ∃ row ∈ s.permissions, row.userId = userId ∧ row.role = role := by
  unfold getUserRole
  rw [Option.map_eq_some_iff]
  constructor
  · rintro ⟨row, found, named⟩
    obtain ⟨member, same⟩ := Keyed.get_eq_some.mp found
    exact ⟨row, member, same, named⟩
  · rintro ⟨row, member, same, named⟩
    exact ⟨row, Keyed.get_eq_some.mpr ⟨member, same⟩, named⟩

/-- `owners` lists one user when one row has the role, and it is that user's. -/
theorem owners_eq_singleton {ownerId : Nat} :
    s.owners = [ownerId] ↔ (∃ row ∈ s.permissions, row.userId = ownerId ∧ row.role = .owner) ∧
      ∀ row ∈ s.permissions, row.role = .owner → row.userId = ownerId := by
  have mem_owners : ∀ userId, userId ∈ s.owners ↔
      ∃ row ∈ s.permissions, row.userId = userId ∧ row.role = .owner := by
    intro userId
    unfold owners
    simp only [List.mem_map, List.mem_filter, beq_iff_eq]
    constructor
    · rintro ⟨row, ⟨member, role⟩, named⟩
      exact ⟨row, member, named, role⟩
    · rintro ⟨row, member, named, role⟩
      exact ⟨row, ⟨member, role⟩, named⟩
  have distinct : s.owners.Nodup :=
    s.permissions.distinct.sublist (List.filter_sublist.map PermissionRow.userId)
  constructor
  · intro single
    refine ⟨(mem_owners ownerId).mp (single ▸ List.mem_singleton_self _), fun row member role => ?_⟩
    have listed := (mem_owners row.userId).mpr ⟨row, member, rfl, role⟩
    rw [single] at listed
    exact List.mem_singleton.mp listed
  · rintro ⟨there, only⟩
    have alone : ∀ userId ∈ s.owners, userId = ownerId := by
      intro userId listed
      obtain ⟨row, member, rfl, role⟩ := (mem_owners userId).mp listed
      exact only row member role
    have listed := (mem_owners ownerId).mpr there
    cases shape : s.owners with
    | nil => rw [shape] at listed; cases listed
    | cons first rest =>
        rw [shape] at alone distinct
        obtain rfl := alone first List.mem_cons_self
        cases rest with
        | nil => rfl
        | cons second rest =>
            obtain rfl := alone second (List.mem_cons_of_mem _ List.mem_cons_self)
            exact absurd List.mem_cons_self (List.nodup_cons.mp distinct).1

/-! ### The locks -/

/-- The caller and the new owner of a transfer whose transaction has locked the owner's row. -/
def transferring : PermissionCall → Option (Nat × Nat)
  | .lockingTarget callerId newOwnerId | .demoting callerId newOwnerId
  | .promoting callerId newOwnerId | .recording callerId newOwnerId
  | .committing callerId newOwnerId => some (callerId, newOwnerId)
  | _ => none

/-- The role that a grant is about to write. -/
def granted : PermissionCall → Option DocumentRole
  | .findingGrantee _ _ role | .granting _ _ role => some role
  | _ => none

/-- The invariant of the locks. -/
structure Locked (s : Ownership) : Prop where
  exclusive : ∀ (i j : Nat) call other, s.calls[i]? = some call → s.calls[j]? = some other →
    ∀ userId ∈ call.locks, userId ∈ other.locks → i = j
  /-- A locked row stays. -/
  present : ∀ call ∈ s.calls, ∀ userId ∈ call.locks, ∃ row ∈ s.permissions, row.userId = userId
  /-- The row that a transfer has locked first stays the owner's. -/
  owning : ∀ call ∈ s.calls, ∀ callerId newOwnerId,
    transferring call = some (callerId, newOwnerId) →
      ∃ row ∈ s.permissions, row.userId = callerId ∧ row.role = .owner
  grantable : ∀ call ∈ s.calls, granted call ≠ some .owner
  /-- The rows refer to the document. -/
  document : ∀ row ∈ s.permissions, s.document.isSome

theorem locked_start : start.Locked where
  exclusive := fun _ _ _ _ found => by simp [start] at found
  present := fun _ member => by cases member
  owning := fun _ member => by cases member
  grantable := fun _ member => by cases member
  document := fun _ member => absurd member Keyed.not_mem_empty

/-- There are no rows before there is a document. -/
theorem Locked.bare (locked : s.Locked) (made : s.document = none) (row : PermissionRow) :
    row ∉ s.permissions := by
  intro inside
  have refers := locked.document row inside
  rw [made] at refers
  cases refers

theorem rowFree_iff {index userId : Nat} :
    s.rowFree index userId = true ↔
      ∀ (j : Nat) other, j ≠ index → s.calls[j]? = some other → userId ∉ other.locks := by
  unfold rowFree
  rw [List.all_eq_true]
  constructor
  · intro free j other apart found
    have listed := List.mem_eraseIdx_iff_getElem?.mpr ⟨j, apart, found⟩
    simpa using free other listed
  · intro free other listed
    obtain ⟨j, apart, found⟩ := List.mem_eraseIdx_iff_getElem?.mp listed
    simpa using free j other apart found

/-- What a call has locked, no other one has. -/
theorem Locked.rowFree (locked : s.Locked) {index userId : Nat} {call : PermissionCall}
    (found : s.calls[index]? = some call) (held : userId ∈ call.locks) :
    s.rowFree index userId = true := by
  rw [rowFree_iff]
  intro j other apart found' held'
  exact apart (locked.exclusive index j call other found found' userId held held').symm

/-- A call goes on and takes locks that are free. -/
theorem Locked.setCall (locked : s.Locked) {index : Nat} {call : PermissionCall}
    (free : ∀ userId ∈ call.locks, s.rowFree index userId = true)
    (present : ∀ userId ∈ call.locks, ∃ row ∈ s.permissions, row.userId = userId)
    (owning : ∀ callerId newOwnerId, transferring call = some (callerId, newOwnerId) →
      ∃ row ∈ s.permissions, row.userId = callerId ∧ row.role = .owner)
    (grantable : granted call ≠ some .owner) : (s.setCall index call).Locked where
  exclusive := by
    intro i j first second found found' userId held held'
    rcases Slots.of_set found with ⟨rfl, rfl⟩ | ⟨apart, old⟩
    · rcases Slots.of_set found' with ⟨rfl, -⟩ | ⟨apart', old'⟩
      · rfl
      · exact absurd held' (rowFree_iff.mp (free userId held) j second apart' old')
    · rcases Slots.of_set found' with ⟨rfl, rfl⟩ | ⟨-, old'⟩
      · exact absurd held (rowFree_iff.mp (free userId held') i first apart old)
      · exact locked.exclusive i j first second old old' userId held held'
  present := by
    intro other member userId held
    rcases List.mem_or_eq_of_mem_set member with old | rfl
    · exact locked.present other old userId held
    · exact present userId held
  owning := by
    intro other member callerId newOwnerId named
    rcases List.mem_or_eq_of_mem_set member with old | rfl
    · exact locked.owning other old callerId newOwnerId named
    · exact owning callerId newOwnerId named
  grantable := by
    intro other member
    rcases List.mem_or_eq_of_mem_set member with old | rfl
    · exact locked.grantable other old
    · exact grantable
  document := locked.document

/-- A call goes on without a lock. -/
theorem Locked.setFree (locked : s.Locked) {index : Nat} {call : PermissionCall}
    (unlocked : call.locks = []) (idle : transferring call = none)
    (grantable : granted call ≠ some .owner) : (s.setCall index call).Locked := by
  refine locked.setCall ?_ ?_ ?_ grantable
  · rw [unlocked]
    exact fun _ held => absurd held List.not_mem_nil
  · rw [unlocked]
    exact fun _ held => absurd held List.not_mem_nil
  · rw [idle]
    exact fun _ _ same => by cases same

theorem Locked.finish (locked : s.Locked) (index : Nat) (outcome : PermissionOutcome) :
    (s.finish index outcome).Locked := by
  refine locked.setFree rfl rfl ?_
  exact fun same => by cases same

/-- A call writes, leaving the rows that others have locked, and is over. -/
theorem Locked.write (locked : s.Locked) {index : Nat} {outcome : PermissionOutcome}
    {document : Option DocumentRow} {permissions : Permissions}
    (kept : ∀ row, s.rowFree index row.userId = false →
      (row ∈ permissions ↔ row ∈ s.permissions))
    (there : ∀ row ∈ permissions, document.isSome) :
    { s.finish index outcome with document, permissions }.Locked := by
  have other_of : ∀ call ∈ s.calls.set index (.done outcome), call.locks ≠ [] →
      ∃ j, j ≠ index ∧ s.calls[j]? = some call := by
    intro call member holding
    obtain ⟨j, found⟩ := List.mem_iff_getElem?.mp member
    rcases Slots.of_set found with ⟨-, rfl⟩ | ⟨apart, old⟩
    · exact absurd rfl holding
    · exact ⟨j, apart, old⟩
  have busy : ∀ (j : Nat) call userId, j ≠ index → s.calls[j]? = some call →
      userId ∈ call.locks → s.rowFree index userId = false := by
    intro j call userId apart found held
    by_contra free
    exact rowFree_iff.mp (Bool.not_eq_false _ ▸ free) j call apart found held
  have done := locked.finish index outcome
  refine
    { exclusive := done.exclusive
      present := ?_
      owning := ?_
      grantable := done.grantable
      document := there }
  · intro call member userId held
    obtain ⟨j, apart, found⟩ := other_of call member (List.ne_nil_of_mem held)
    obtain ⟨row, inside, rfl⟩ := locked.present call (List.mem_of_getElem? found) userId held
    exact ⟨row, (kept row (busy j call row.userId apart found held)).mpr inside, rfl⟩
  · intro call member callerId newOwnerId named
    have held : callerId ∈ call.locks := by
      cases call <;> cases named <;> exact List.mem_cons_self
    obtain ⟨j, apart, found⟩ := other_of call member (List.ne_nil_of_mem held)
    obtain ⟨row, inside, rfl, role⟩ :=
      locked.owning call (List.mem_of_getElem? found) callerId newOwnerId named
    exact ⟨row, (kept row (busy j call row.userId apart found held)).mpr inside, rfl, role⟩

/-- Whatever the decision on the caller, nothing is locked yet and no owner is made. -/
theorem checkCaller_free (role : Option DocumentRole) (request : PermissionRequest) :
    (checkCaller role request).locks = [] ∧ transferring (checkCaller role request) = none ∧
      granted (checkCaller role request) ≠ some .owner := by
  have plain : ∀ outcome, (PermissionCall.done outcome).locks = [] ∧
      transferring (.done outcome) = none ∧ granted (.done outcome) ≠ some .owner :=
    fun _ => ⟨rfl, rfl, fun same => by cases same⟩
  cases request with
  | grant callerId targetUserId rawRole =>
      cases role with
      | none => exact plain _
      | some role =>
          cases role with
          | owner =>
              unfold checkCaller
              dsimp only
              split_ifs with same
              · exact plain _
              · cases rawRole with
                | none => exact plain _
                | some wanted =>
                    cases wanted with
                    | owner => exact plain _
                    | editor => exact ⟨rfl, rfl, fun same => by cases same⟩
                    | viewer => exact ⟨rfl, rfl, fun same => by cases same⟩
          | editor => exact plain _
          | viewer => exact plain _
  | revoke callerId targetUserId =>
      cases role with
      | none => exact plain _
      | some role => cases role <;> exact ⟨rfl, rfl, fun same => by cases same⟩
  | transfer callerId rawNewOwnerId =>
      cases role with
      | none => exact plain _
      | some role =>
          cases role <;> cases rawNewOwnerId <;> exact ⟨rfl, rfl, fun same => by cases same⟩
  | delete callerId =>
      cases role with
      | none => exact plain _
      | some role => cases role <;> exact ⟨rfl, rfl, fun same => by cases same⟩

variable {users : Nat → Bool} {s' : Ownership}

theorem ownerRow_mem {row : PermissionRow} (found : s.ownerRow = some row) :
    row ∈ s.permissions ∧ row.role = .owner :=
  ⟨List.mem_of_find?_eq_some found, by simpa using List.find?_some found⟩

/-- The transaction of a transfer goes from one statement to the next with the locks it has. -/
theorem Locked.proceed (locked : s.Locked) {index callerId newOwnerId : Nat}
    {call next : PermissionCall} (found : s.calls[index]? = some call)
    (before : transferring call = some (callerId, newOwnerId))
    (now : transferring next = some (callerId, newOwnerId)) (same : next.locks = call.locks)
    (grantable : granted next ≠ some .owner) : (s.setCall index next).Locked := by
  refine locked.setCall ?_ ?_ ?_ grantable
  · rw [same]
    exact fun userId held => locked.rowFree found held
  · rw [same]
    exact fun userId held => locked.present call (List.mem_of_getElem? found) userId held
  · intro c n named
    rw [now] at named
    cases named
    exact locked.owning call (List.mem_of_getElem? found) callerId newOwnerId before

theorem create_ok {ownerId : Nat} (stepped : s.step users (.create ownerId) = .ok s') :
    s.document = none ∧ s' = { s with
      document := some ⟨ownerId, false⟩
      permissions := s.permissions.set ⟨ownerId, .owner, ownerId⟩ } := by
  unfold Ownership.step at stepped
  dsimp only at stepped
  cases made : s.document with
  | some document => rw [made] at stepped; cases stepped
  | none =>
      rw [made] at stepped
      exact ⟨rfl, (Except.ok.inj stepped).symm⟩

theorem statement_ok {index : Nat} (stepped : s.step users (.statement index) = .ok s') :
    ∃ call, s.calls[index]? = some call ∧ statement users s index call = .ok s' := by
  unfold Ownership.step at stepped
  dsimp only at stepped
  cases found : s.calls[index]? with
  | none => rw [found] at stepped; cases stepped
  | some call =>
      rw [found] at stepped
      exact ⟨call, rfl, stepped⟩

/-! The statements that take locks. -/

theorem Locked.lockOwner (locked : s.Locked) {index newOwnerId : Nat} {row : PermissionRow}
    (owner : s.ownerRow = some row) (free : s.rowFree index row.userId = true) :
    (s.setCall index (.lockingTarget row.userId newOwnerId)).Locked := by
  obtain ⟨inside, role⟩ := ownerRow_mem owner
  refine locked.setCall ?_ ?_ ?_ fun same => by cases same
  · intro userId held
    obtain rfl := List.mem_singleton.mp held
    exact free
  · intro userId held
    obtain rfl := List.mem_singleton.mp held
    exact ⟨row, inside, rfl⟩
  · intro c n named
    cases named
    exact ⟨row, inside, rfl, role⟩

theorem Locked.lockTarget (locked : s.Locked) {index callerId newOwnerId : Nat} {row : PermissionRow}
    (found : s.calls[index]? = some (.lockingTarget callerId newOwnerId))
    (target : s.permissions.get newOwnerId = some row) (free : s.rowFree index newOwnerId = true) :
    (s.setCall index (.demoting callerId newOwnerId)).Locked := by
  have member := List.mem_of_getElem? found
  obtain ⟨inside, named⟩ := Keyed.get_eq_some.mp target
  have first : callerId ∈ (PermissionCall.lockingTarget callerId newOwnerId).locks :=
    List.mem_cons_self
  refine locked.setCall ?_ ?_ ?_ fun same => by cases same
  · intro userId held
    rcases List.mem_cons.mp held with rfl | held
    · exact locked.rowFree found first
    · obtain rfl := List.mem_singleton.mp held
      exact free
  · intro userId held
    rcases List.mem_cons.mp held with rfl | held
    · exact locked.present _ member _ first
    · obtain rfl := List.mem_singleton.mp held
      exact ⟨row, inside, named⟩
  · intro c n same
    cases same
    exact locked.owning _ member callerId newOwnerId rfl

theorem Locked.lockRows (locked : s.Locked) {index : Nat}
    (free : ∀ row ∈ s.permissions.entries, s.rowFree index row.userId = true) :
    (s.setCall index (.committingDeletion (s.permissions.entries.map PermissionRow.userId))).Locked := by
  refine locked.setCall ?_ ?_ (fun _ _ same => by cases same) fun same => by cases same
  · intro userId held
    obtain ⟨row, inside, rfl⟩ := List.mem_map.mp held
    exact free row inside
  · intro userId held
    obtain ⟨row, inside, rfl⟩ := List.mem_map.mp held
    exact ⟨row, inside, rfl⟩

/-! The statements that write. -/

theorem busy_ne {index userId : Nat} {row : PermissionRow} (free : s.rowFree index userId = true)
    (taken : s.rowFree index row.userId = false) : row.userId ≠ userId := by
  intro same
  rw [same, free] at taken
  cases taken

theorem Locked.setRow (locked : s.Locked) {index : Nat} {granted : PermissionRow}
    (made : s.document.isSome) (free : s.rowFree index granted.userId = true) :
    { s.finish index .ok with permissions := s.permissions.set granted }.Locked := by
  refine locked.write (fun row taken => ?_) fun _ _ => made
  rw [Keyed.mem_set]
  have other := busy_ne free taken
  constructor
  · rintro (rfl | ⟨inside, -⟩)
    · exact absurd rfl other
    · exact inside
  · exact fun inside => Or.inr ⟨inside, other⟩

theorem Locked.deleteRow (locked : s.Locked) {index targetUserId : Nat}
    (free : s.rowFree index targetUserId = true) :
    { s.finish index .ok with permissions := s.permissions.delete targetUserId }.Locked := by
  refine locked.write (fun row taken => ?_) fun row inside =>
    locked.document row (Keyed.mem_delete.mp inside).1
  rw [Keyed.mem_delete]
  exact ⟨fun inside => inside.1, fun inside => ⟨inside, busy_ne free taken⟩⟩

theorem Locked.commitTransfer (locked : s.Locked) {index callerId newOwnerId : Nat}
    (found : s.calls[index]? = some (.committing callerId newOwnerId)) :
    Locked { s.finish index .ok with
      document := s.document.map fun document => { document with ownerId := newOwnerId }
      permissions :=
        updateRole (updateRole s.permissions callerId .editor callerId) newOwnerId .owner callerId } := by
  have free : ∀ userId ∈ [callerId, newOwnerId], s.rowFree index userId = true :=
    fun userId held => locked.rowFree found held
  obtain ⟨row, inside, -⟩ := locked.owning _ (List.mem_of_getElem? found) callerId newOwnerId rfl
  refine locked.write (fun row taken => ?_) fun _ _ => ?_
  · rw [mem_updateRole (busy_ne (free _ (List.mem_cons_of_mem _ List.mem_cons_self)) taken),
      mem_updateRole (busy_ne (free _ List.mem_cons_self) taken)]
  · rw [Option.isSome_map]
    exact locked.document row inside

theorem Locked.commitDeletion (locked : s.Locked) {index : Nat} {deleted : List Nat}
    (found : s.calls[index]? = some (.committingDeletion deleted)) :
    Locked { s.finish index .ok with
      document := s.document.map fun document => { document with accessRevoked := true }
      permissions := deleted.foldl Keyed.delete s.permissions } := by
  refine locked.write (fun row taken => ?_) fun row inside => ?_
  · rw [mem_deleteAll]
    refine ⟨fun inside => inside.1, fun inside => ⟨inside, fun held => ?_⟩⟩
    exact busy_ne (locked.rowFree found held) taken rfl
  · rw [Option.isSome_map]
    exact locked.document row (mem_deleteAll.mp inside).1

/-- Every statement keeps the invariant of the locks. -/
theorem Locked.statement (locked : s.Locked) {index : Nat} {call : PermissionCall}
    (found : s.calls[index]? = some call) (stepped : statement users s index call = .ok s') :
    s'.Locked := by
  unfold Ownership.statement at stepped
  cases call with
  | received request =>
      obtain rfl := Except.ok.inj stepped
      obtain ⟨free, idle, grantable⟩ :=
        checkCaller_free (s.getUserRole request.callerId) request
      exact locked.setFree free idle grantable
  | findingGrantee callerId targetUserId role =>
      dsimp only at stepped
      split_ifs at stepped with known
      · obtain rfl := Except.ok.inj stepped
        have fine : granted (.findingGrantee callerId targetUserId role) ≠ some .owner :=
          locked.grantable _ (List.mem_of_getElem? found)
        exact locked.setFree rfl rfl fine
      · obtain rfl := Except.ok.inj stepped
        exact locked.finish index _
  | granting callerId targetUserId role =>
      dsimp only at stepped
      split_ifs at stepped with allowed
      obtain rfl := Except.ok.inj stepped
      exact locked.setRow allowed.1 allowed.2
  | findingTarget targetUserId =>
      dsimp only at stepped
      cases role : s.getUserRole targetUserId with
      | none =>
          rw [role] at stepped
          obtain rfl := Except.ok.inj stepped
          exact locked.finish index _
      | some role' =>
          rw [role] at stepped
          cases role' with
          | owner =>
              obtain rfl := Except.ok.inj stepped
              exact locked.finish index _
          | editor =>
              obtain rfl := Except.ok.inj stepped
              exact locked.setFree rfl rfl fun same => by cases same
          | viewer =>
              obtain rfl := Except.ok.inj stepped
              exact locked.setFree rfl rfl fun same => by cases same
  | revoking targetUserId =>
      dsimp only at stepped
      split_ifs at stepped with free
      obtain rfl := Except.ok.inj stepped
      exact locked.deleteRow free
  | findingNewOwner callerId newOwnerId =>
      dsimp only at stepped
      split_ifs at stepped with known
      · obtain rfl := Except.ok.inj stepped
        exact locked.setFree rfl rfl fun same => by cases same
      · obtain rfl := Except.ok.inj stepped
        exact locked.finish index _
  | lockingOwner callerId newOwnerId =>
      dsimp only at stepped
      cases owner : s.ownerRow with
      | none =>
          rw [owner] at stepped
          obtain rfl := Except.ok.inj stepped
          exact locked.finish index _
      | some row =>
          rw [owner] at stepped
          dsimp only at stepped
          split_ifs at stepped with free mine
          · obtain rfl := Except.ok.inj stepped
            subst mine
            exact locked.lockOwner owner free
          · obtain rfl := Except.ok.inj stepped
            exact locked.finish index _
  | lockingTarget callerId newOwnerId =>
      dsimp only at stepped
      cases target : s.permissions.get newOwnerId with
      | none =>
          rw [target] at stepped
          obtain rfl := Except.ok.inj stepped
          exact locked.finish index _
      | some row =>
          rw [target] at stepped
          dsimp only at stepped
          split_ifs at stepped with free
          obtain rfl := Except.ok.inj stepped
          exact locked.lockTarget found target free
  | demoting callerId newOwnerId =>
      obtain rfl := Except.ok.inj stepped
      exact locked.proceed found rfl rfl rfl fun same => by cases same
  | promoting callerId newOwnerId =>
      dsimp only at stepped
      split_ifs at stepped with second
      obtain rfl := Except.ok.inj stepped
      exact locked.proceed found rfl rfl rfl fun same => by cases same
  | recording callerId newOwnerId =>
      dsimp only at stepped
      split_ifs at stepped with free
      obtain rfl := Except.ok.inj stepped
      exact locked.proceed found rfl rfl rfl fun same => by cases same
  | committing callerId newOwnerId =>
      obtain rfl := Except.ok.inj stepped
      exact locked.commitTransfer found
  | revokingAccess =>
      dsimp only at stepped
      split_ifs at stepped with free
      obtain rfl := Except.ok.inj stepped
      exact locked.setFree rfl rfl fun same => by cases same
  | deletingRows =>
      dsimp only at stepped
      split_ifs at stepped with free
      obtain rfl := Except.ok.inj stepped
      exact locked.lockRows free
  | committingDeletion deleted =>
      obtain rfl := Except.ok.inj stepped
      exact locked.commitDeletion found
  | done outcome => cases stepped

theorem Locked.kept (locked : s.Locked) {label : OwnershipLabel}
    (stepped : s.step users label = .ok s') : s'.Locked := by
  cases label with
  | create ownerId =>
      obtain ⟨made, rfl⟩ := create_ok stepped
      have bare := locked.bare made
      exact
        { exclusive := locked.exclusive
          present := fun call member userId held => by
            obtain ⟨row, inside, -⟩ := locked.present call member userId held
            exact absurd inside (bare row)
          owning := fun call member callerId newOwnerId named => by
            obtain ⟨row, inside, -⟩ := locked.owning call member callerId newOwnerId named
            exact absurd inside (bare row)
          grantable := locked.grantable
          document := fun _ _ => rfl }
  | begin request =>
      obtain rfl := Except.ok.inj stepped
      have older : ∀ {j : Nat} {other : PermissionCall},
          (s.calls ++ [.received request])[j]? = some other → other.locks ≠ [] →
            s.calls[j]? = some other := by
        intro j other found holding
        rcases Slots.of_append found with ⟨-, rfl⟩ | ⟨-, old⟩
        · exact absurd rfl holding
        · exact old
      refine
        { exclusive := fun i j call other found found' userId held held' =>
            locked.exclusive i j call other (older found (List.ne_nil_of_mem held))
              (older found' (List.ne_nil_of_mem held')) userId held held'
          present := ?_
          owning := ?_
          grantable := ?_
          document := locked.document }
      · intro call member userId held
        rcases List.mem_append.mp member with old | new
        · exact locked.present call old userId held
        · obtain rfl := List.mem_singleton.mp new
          cases held
      · intro call member callerId newOwnerId named
        rcases List.mem_append.mp member with old | new
        · exact locked.owning call old callerId newOwnerId named
        · obtain rfl := List.mem_singleton.mp new
          cases named
      · intro call member
        rcases List.mem_append.mp member with old | new
        · exact locked.grantable call old
        · obtain rfl := List.mem_singleton.mp new
          exact fun same => by cases same
  | statement index =>
      obtain ⟨call, found, ran⟩ := statement_ok stepped
      exact locked.statement found ran
  | fails index =>
      obtain rfl := Except.ok.inj stepped
      exact locked.finish index _

/-! ### One owner, step by step -/

/-- On the rows: the document is not deleted and the user it names alone has the role, or it is
deleted and has no rows. -/
theorem oneOwner_some {document : DocumentRow} (made : s.document = some document) :
    s.OneOwner ↔ if document.accessRevoked then ∀ row, row ∉ s.permissions
      else (∃ row ∈ s.permissions, row.userId = document.ownerId ∧ row.role = .owner) ∧
        ∀ row ∈ s.permissions, row.role = .owner → row.userId = document.ownerId := by
  unfold OneOwner
  rw [made]
  dsimp only
  split_ifs with revoked
  · exact List.eq_nil_iff_forall_not_mem
  · exact owners_eq_singleton

theorem oneOwner_none (made : s.document = none) : s.OneOwner := by
  unfold OneOwner
  rw [made]
  exact trivial

/-- Rows and document alone decide. -/
theorem oneOwner_of_same (document : s'.document = s.document)
    (permissions : s'.permissions = s.permissions) : s'.OneOwner ↔ s.OneOwner := by
  unfold OneOwner owners
  rw [document, permissions]

/-- The upsert of a grant makes another role of the owner's, or puts a row into a deleted document,
or does no harm. -/
theorem exact_grant {callerId targetUserId : Nat} {role : DocumentRole} (one : s.OneOwner)
    (made : s.document.isSome) (grantable : role ≠ .owner) (kept : s'.document = s.document)
    (wrote : s'.permissions = s.permissions.set ⟨targetUserId, role, callerId⟩) :
    s'.OneOwner ↔ s.accessRevoked = false ∧ s.getUserRole targetUserId ≠ some .owner := by
  obtain ⟨document, made⟩ := Option.isSome_iff_exists.mp made
  rw [oneOwner_some made] at one
  rw [oneOwner_some (kept.trans made), wrote]
  have revoked_eq : s.accessRevoked = document.accessRevoked := by
    rw [accessRevoked, made]
    rfl
  rw [revoked_eq]
  split_ifs at one ⊢ with revoked
  · rw [revoked]
    refine ⟨fun bare => absurd (Keyed.mem_set.mpr (Or.inl rfl)) (bare _), fun fine => ?_⟩
    cases fine.1
  · obtain ⟨⟨row, inside, named, owner⟩, only⟩ := one
    constructor
    · rintro ⟨⟨row', inside', named', owner'⟩, -⟩
      refine ⟨by simpa using revoked, fun own => ?_⟩
      -- The row of the target was the owner's, and is overwritten.
      obtain ⟨row'', inside'', rfl, owner''⟩ := getUserRole_eq_some.mp own
      have same := only row'' inside'' owner''
      rcases Keyed.mem_set.mp inside' with rfl | ⟨-, other⟩
      · exact grantable owner'
      · exact other (named'.trans same.symm)
    · rintro ⟨-, other⟩
      have apart : row.userId ≠ targetUserId := fun same =>
        other (getUserRole_eq_some.mpr ⟨row, inside, same, owner⟩)
      refine ⟨⟨row, Keyed.mem_set.mpr (Or.inr ⟨inside, apart⟩), named, owner⟩, ?_⟩
      intro row' inside' owner'
      rcases Keyed.mem_set.mp inside' with rfl | ⟨old, -⟩
      · exact absurd owner' grantable
      · exact only row' old owner'

/-- The deletion of a revocation takes the owner's row away, or does no harm. -/
theorem exact_revoke {targetUserId : Nat} (locked : s.Locked) (one : s.OneOwner)
    (kept : s'.document = s.document)
    (wrote : s'.permissions = s.permissions.delete targetUserId) :
    s'.OneOwner ↔ s.getUserRole targetUserId ≠ some .owner := by
  cases made : s.document with
  | none =>
      refine ⟨fun _ own => ?_, fun _ => oneOwner_none (kept.trans made)⟩
      obtain ⟨row, inside, -⟩ := getUserRole_eq_some.mp own
      exact locked.bare made row inside
  | some document =>
      rw [oneOwner_some made] at one
      rw [oneOwner_some (kept.trans made), wrote]
      split_ifs at one ⊢ with revoked
      · refine ⟨fun _ own => ?_, fun _ row inside => one row (Keyed.mem_delete.mp inside).1⟩
        obtain ⟨row, inside, -⟩ := getUserRole_eq_some.mp own
        exact one row inside
      · obtain ⟨⟨row, inside, named, owner⟩, only⟩ := one
        constructor
        · rintro ⟨⟨row', inside', named', -⟩, -⟩ own
          obtain ⟨row'', inside'', rfl, owner''⟩ := getUserRole_eq_some.mp own
          exact (Keyed.mem_delete.mp inside').2
            (named'.trans (only row'' inside'' owner'').symm)
        · intro other
          have apart : row.userId ≠ targetUserId := fun same =>
            other (getUserRole_eq_some.mpr ⟨row, inside, same, owner⟩)
          exact ⟨⟨row, Keyed.mem_delete.mpr ⟨inside, apart⟩, named, owner⟩,
            fun row' inside' => only row' (Keyed.mem_delete.mp inside').1⟩

/-- A transfer that commits hands the role on, for its locks have kept the two rows. -/
theorem oneOwner_transfer {index callerId newOwnerId : Nat} (locked : s.Locked)
    (one : s.OneOwner) (found : s.calls[index]? = some (.committing callerId newOwnerId))
    (named : s'.document =
      s.document.map fun document => { document with ownerId := newOwnerId })
    (wrote : s'.permissions = updateRole (updateRole s.permissions callerId .editor callerId)
      newOwnerId .owner callerId) : s'.OneOwner := by
  have member := List.mem_of_getElem? found
  obtain ⟨caller, inside, mine, owner⟩ := locked.owning _ member callerId newOwnerId rfl
  obtain ⟨target, inside', aimed⟩ := locked.present _ member newOwnerId
    (List.mem_cons_of_mem _ List.mem_cons_self)
  obtain ⟨document, made⟩ := Option.isSome_iff_exists.mp (locked.document caller inside)
  rw [oneOwner_some made] at one
  rw [made] at named
  rw [oneOwner_some named, wrote]
  dsimp only
  split_ifs at one ⊢ with revoked
  · exact absurd inside (one caller)
  · have only := one.2
    -- The target's row is there after the demotion, be it the caller's own or not.
    have there : ∃ row ∈ updateRole s.permissions callerId .editor callerId,
        row.userId = newOwnerId := by
      by_cases own : newOwnerId = callerId
      · exact ⟨_, mem_updateRole_self inside mine, own.symm⟩
      · exact ⟨target, (mem_updateRole (by rw [aimed]; exact own)).mpr inside', aimed⟩
    obtain ⟨row, present, aimed'⟩ := there
    refine ⟨⟨_, mem_updateRole_self present aimed', rfl, rfl⟩, fun row' after owner' => ?_⟩
    by_contra other
    have before := (mem_updateRole other).mp after
    by_cases own : row'.userId = callerId
    · rw [updateRole_self inside mine before own] at owner'
      cases owner'
    · have old := (mem_updateRole own).mp before
      have same := only row' old owner'
      rw [← only caller inside owner, mine] at same
      exact own same

/-- A deletion that commits leaves the rows that it has not seen. -/
theorem exact_deletion {deleted : List Nat} (locked : s.Locked)
    (revoked : s'.document =
      s.document.map fun document => { document with accessRevoked := true })
    (wrote : s'.permissions = deleted.foldl Keyed.delete s.permissions) :
    s'.OneOwner ↔ ∀ row ∈ s.permissions.entries, row.userId ∈ deleted := by
  cases made : s.document with
  | none =>
      rw [made] at revoked
      exact ⟨fun _ row inside => absurd inside (locked.bare made row),
        fun _ => oneOwner_none revoked⟩
  | some document =>
      rw [made] at revoked
      rw [oneOwner_some revoked, wrote, if_pos rfl]
      constructor
      · intro bare row inside
        by_contra missed
        exact bare row (mem_deleteAll.mpr ⟨inside, missed⟩)
      · intro all row after
        obtain ⟨inside, missed⟩ := mem_deleteAll.mp after
        exact missed (all row inside)

/-- Every statement that keeps the promise meets the condition, and the other way round. -/
theorem exact_statement {index : Nat} {call : PermissionCall} (locked : s.Locked)
    (one : s.OneOwner) (found : s.calls[index]? = some call)
    (stepped : statement users s index call = .ok s') :
    s'.OneOwner ↔ s.Unstale (.statement index) := by
  -- Most statements leave the rows and the document as they are.
  have quiet : ∀ {after : Ownership}, Except.ok (ε := Unit) after = .ok s' →
      after.document = s.document → after.permissions = s.permissions → s'.OneOwner := by
    intro after same document permissions
    obtain rfl := Except.ok.inj same
    exact (oneOwner_of_same document permissions).mpr one
  unfold Unstale
  dsimp only
  rw [found]
  unfold Ownership.statement at stepped
  cases call with
  | granting callerId targetUserId role =>
      dsimp only at stepped ⊢
      split_ifs at stepped with allowed
      obtain rfl := Except.ok.inj stepped
      have fine := locked.grantable _ (List.mem_of_getElem? found)
      exact exact_grant one allowed.1 (fun same => fine (congrArg some same)) rfl rfl
  | revoking targetUserId =>
      dsimp only at stepped ⊢
      split_ifs at stepped with free
      obtain rfl := Except.ok.inj stepped
      exact exact_revoke locked one rfl rfl
  | committingDeletion deleted =>
      obtain rfl := Except.ok.inj stepped
      exact exact_deletion locked rfl rfl
  | committing callerId newOwnerId =>
      obtain rfl := Except.ok.inj stepped
      exact iff_of_true (oneOwner_transfer locked one found rfl rfl) trivial
  | received request => exact iff_of_true (quiet stepped rfl rfl) trivial
  | findingGrantee callerId targetUserId role =>
      refine iff_of_true ?_ trivial
      dsimp only at stepped
      split_ifs at stepped with known
      · exact quiet stepped rfl rfl
      · exact quiet stepped rfl rfl
  | findingTarget targetUserId =>
      refine iff_of_true ?_ trivial
      dsimp only at stepped
      split at stepped
      · exact quiet stepped rfl rfl
      · exact quiet stepped rfl rfl
      · exact quiet stepped rfl rfl
  | findingNewOwner callerId newOwnerId =>
      refine iff_of_true ?_ trivial
      dsimp only at stepped
      split_ifs at stepped with known
      · exact quiet stepped rfl rfl
      · exact quiet stepped rfl rfl
  | lockingOwner callerId newOwnerId =>
      refine iff_of_true ?_ trivial
      dsimp only at stepped
      split at stepped
      · exact quiet stepped rfl rfl
      · split_ifs at stepped with free mine
        · exact quiet stepped rfl rfl
        · exact quiet stepped rfl rfl
  | lockingTarget callerId newOwnerId =>
      refine iff_of_true ?_ trivial
      dsimp only at stepped
      split at stepped
      · exact quiet stepped rfl rfl
      · split_ifs at stepped with free
        exact quiet stepped rfl rfl
  | demoting callerId newOwnerId => exact iff_of_true (quiet stepped rfl rfl) trivial
  | promoting callerId newOwnerId =>
      refine iff_of_true ?_ trivial
      dsimp only at stepped
      split_ifs at stepped with second
      exact quiet stepped rfl rfl
  | recording callerId newOwnerId =>
      refine iff_of_true ?_ trivial
      dsimp only at stepped
      split_ifs at stepped with free
      exact quiet stepped rfl rfl
  | revokingAccess =>
      refine iff_of_true ?_ trivial
      dsimp only at stepped
      split_ifs at stepped with free
      exact quiet stepped rfl rfl
  | deletingRows =>
      refine iff_of_true ?_ trivial
      dsimp only at stepped
      split_ifs at stepped with free
      exact quiet stepped rfl rfl
  | done outcome => cases stepped

theorem exact_step {label : OwnershipLabel} (locked : s.Locked) (one : s.OneOwner)
    (stepped : s.step users label = .ok s') : s'.OneOwner ↔ s.Unstale label := by
  cases label with
  | create ownerId =>
      refine iff_of_true ?_ trivial
      obtain ⟨made, rfl⟩ := create_ok stepped
      have made' : { s with
          document := some ⟨ownerId, false⟩
          permissions := s.permissions.set ⟨ownerId, .owner, ownerId⟩ }.document =
            some ⟨ownerId, false⟩ := rfl
      rw [oneOwner_some made']
      dsimp only
      rw [if_neg (by decide)]
      refine ⟨⟨_, Keyed.mem_set.mpr (Or.inl rfl), rfl, rfl⟩, fun row inside _ => ?_⟩
      rcases Keyed.mem_set.mp inside with rfl | ⟨old, -⟩
      · rfl
      · exact absurd old (locked.bare made row)
  | begin request =>
      obtain rfl := Except.ok.inj stepped
      exact iff_of_true ((oneOwner_of_same rfl rfl).mpr one) trivial
  | statement index =>
      obtain ⟨call, found, ran⟩ := statement_ok stepped
      exact exact_statement locked one found ran
  | fails index =>
      obtain rfl := Except.ok.inj stepped
      exact iff_of_true ((oneOwner_of_same rfl rfl).mpr one) trivial

/-! ### One owner, in every run -/

/-- A run keeps to one owner exactly when no step of it writes on a check that no longer holds. -/
theorem oneOwner_iff (users : Nat → Bool) (labels : List OwnershipLabel) :
    Always (step users) OneOwner start labels ↔ Each (step users) Unstale start labels :=
  always_iff_each (fun _ _ _ locked stepped => Locked.kept locked stepped)
    (fun _ _ _ locked one stepped => exact_step locked one stepped) locked_start trivial labels

/-- The owner 1 makes 2 an editor. -/
def sharedRun : List OwnershipLabel :=
  [.create 1, .begin (.grant 1 2 (some .editor)), .statement 0, .statement 0, .statement 0]

/-- The ownership goes to 2 while the request `other` of the owner 1 is between its check, which
takes `checks` statements, and its write. -/
def overtakenRun (other : PermissionRequest) (checks : Nat) : List OwnershipLabel :=
  sharedRun ++ [.begin other] ++ List.replicate checks (.statement 1) ++
    [.begin (.transfer 1 (some 2))] ++ List.replicate 8 (.statement 2) ++ [.statement 1]

/-- A grant is between its check and its write while the document is deleted. -/
def grantAfterDeletionRun : List OwnershipLabel :=
  sharedRun ++ [.begin (.grant 1 3 (some .editor)), .statement 1, .statement 1,
    .begin (.delete 1), .statement 2, .statement 2, .statement 2, .statement 2, .statement 1]

def everyone : Nat → Bool := fun _ => true

/-- A grant and a revocation each leave the document without an owner, and a grant gives a deleted
document a row. -/
theorem owner_lost :
    (∃ s, run (step everyone) start (overtakenRun (.grant 1 2 (some .viewer)) 2) = .ok s ∧
      s.owners = [] ∧ ¬ s.OneOwner) ∧
    (∃ s, run (step everyone) start (overtakenRun (.revoke 1 2) 2) = .ok s ∧
      s.owners = [] ∧ ¬ s.OneOwner) ∧
    ∃ s, run (step everyone) start grantAfterDeletionRun = .ok s ∧ s.accessRevoked = true ∧
      s.permissions.entries = [⟨3, .editor, 1⟩] ∧ ¬ s.OneOwner :=
  ⟨⟨_, rfl, by decide, by decide⟩, ⟨_, rfl, by decide, by decide⟩,
    _, rfl, by decide, by decide, by decide⟩

end Ownership

end ConfluenceEditor
