/-
The overlay that shows where the other participants are.

It builds its participants from the frames of the presence channel: a join and a roster introduce
them without a position, an update positions one that is known, a leave removes one. What a frame
does to one replica depends on nothing else, so `slot` says it for a single entry, and `get_handle`
connects it to the map. When and where the entries are drawn is left out.
-/

import ConfluenceEditor.Library.Keyed
import ConfluenceEditor.Protocol.PresenceCodec

namespace ConfluenceEditor

/-- A position is the identifiers to its left and whether the selection is collapsed. -/
structure PresencePosition where
  anchor : Option Identifier
  focus : Option Identifier
  collapsed : Bool
  deriving DecidableEq, Repr

structure ParticipantState where
  replicaId : Nat
  userId : String
  displayName : String
  anchor : Option Identifier
  focus : Option Identifier
  collapsed : Bool
  hasPosition : Bool
  deriving DecidableEq, Repr

namespace ParticipantState

/-- A participant that a join or a roster introduces. -/
def introduced (p : PresenceRosterEntry) : ParticipantState :=
  ⟨p.replicaId, p.userId, p.displayName, none, none, true, false⟩

def moved (p : ParticipantState) (position : PresencePosition) : ParticipantState :=
  { p with
    anchor := position.anchor
    focus := position.focus
    collapsed := position.collapsed
    hasPosition := true }

/-- The entry shows this position. -/
def Shows (p : ParticipantState) (position : PresencePosition) : Prop :=
  p.hasPosition = true ∧ ⟨p.anchor, p.focus, p.collapsed⟩ = position

theorem moved_shows (p : ParticipantState) (position : PresencePosition) :
    (p.moved position).Shows position := ⟨rfl, rfl⟩

end ParticipantState

structure PresenceOverlay where
  participants : Keyed ParticipantState.replicaId

namespace PresenceOverlay

def empty : PresenceOverlay := ⟨Keyed.empty⟩

def get (o : PresenceOverlay) (replicaId : Nat) : Option ParticipantState :=
  o.participants.get replicaId

def handlePresenceEvent (o : PresenceOverlay) : PresenceMessage → PresenceOverlay
  | .presenceJoin p => ⟨o.participants.set (.introduced p)⟩
  | .presenceRoster participants =>
      ⟨participants.foldl (fun m p => m.set (.introduced p)) Keyed.empty⟩
  | .presenceUpdate replicaId anchor focus collapsed =>
      match o.participants.get replicaId with
      | none => o
      | some p => ⟨o.participants.set (p.moved ⟨anchor, focus, collapsed⟩)⟩
  | .presenceLeave replicaId _ => ⟨o.participants.delete replicaId⟩

/-! ### One replica -/

/-- What a frame does to the entry of one replica. In a roster the last entry counts. -/
def slot (replicaId : Nat) (before : Option ParticipantState) :
    PresenceMessage → Option ParticipantState
  | .presenceJoin p => if p.replicaId = replicaId then some (.introduced p) else before
  | .presenceRoster participants =>
      (participants.reverse.find? fun p => p.replicaId = replicaId).map .introduced
  | .presenceUpdate mover anchor focus collapsed =>
      if mover = replicaId then before.map fun p => p.moved ⟨anchor, focus, collapsed⟩ else before
  | .presenceLeave leaver _ => if leaver = replicaId then none else before

theorem get_introduced (participants : List PresenceRosterEntry) (replicaId : Nat)
    (m : Keyed ParticipantState.replicaId) :
    (participants.foldl (fun m p => m.set (.introduced p)) m).get replicaId =
      ((participants.reverse.find? fun p => p.replicaId = replicaId).map .introduced).or
        (m.get replicaId) := by
  induction participants generalizing m with
  | nil => rfl
  | cons p participants ih =>
      rw [List.foldl_cons, ih, List.reverse_cons, List.find?_append, Keyed.get_set]
      cases participants.reverse.find? fun p => p.replicaId = replicaId with
      | some q => rfl
      | none =>
          by_cases here : p.replicaId = replicaId
          · simp [ParticipantState.introduced, here]
          · simp [ParticipantState.introduced, here]

theorem get_handle (o : PresenceOverlay) (replicaId : Nat) (msg : PresenceMessage) :
    (o.handlePresenceEvent msg).get replicaId = slot replicaId (o.get replicaId) msg := by
  cases msg with
  | presenceJoin p => exact Keyed.get_set
  | presenceLeave leaver reason => exact Keyed.get_delete
  | presenceRoster participants =>
      refine (get_introduced participants replicaId Keyed.empty).trans ?_
      rw [Keyed.get_empty, Option.or_none]
      rfl
  | presenceUpdate mover anchor focus collapsed =>
      show get (match o.participants.get mover with
        | none => o
        | some p => ⟨o.participants.set (p.moved ⟨anchor, focus, collapsed⟩)⟩) replicaId =
          if mover = replicaId then (o.get replicaId).map fun p => p.moved ⟨anchor, focus, collapsed⟩
          else o.get replicaId
      cases found : o.participants.get mover with
      | none =>
          split_ifs with here
          · subst here
            rw [get, found]
            rfl
          · rfl
      | some p =>
          obtain ⟨-, rfl⟩ := Keyed.get_eq_some.mp found
          show (o.participants.set (p.moved _)).get replicaId = _
          rw [Keyed.get_set]
          show (if p.replicaId = replicaId then _ else _) = _
          split_ifs with here
          · subst here
            rw [get, found]
            rfl
          · rfl

end PresenceOverlay

end ConfluenceEditor
