/-
The presence room of one document.

A room holds its participants in the order in which they joined. Joining, leaving and moving send a
frame to every other participant, and the roster is sent to one participant only. The frames are
returned as a list of recipients and messages; what becomes of them is up to the send queues.
-/

import ConfluenceEditor.Library.Keyed
import ConfluenceEditor.Protocol.PresenceCodec

namespace ConfluenceEditor

structure PresenceParticipant where
  sessionId : Nat
  replicaId : Nat
  userId : String
  displayName : String
  role : SessionRole
  deriving DecidableEq, Repr

/-- What the other clients are told about a participant. -/
def PresenceParticipant.entry (p : PresenceParticipant) : PresenceRosterEntry :=
  ⟨p.replicaId, p.userId, p.displayName, p.role⟩

/-- The participants under their sessions; each has a sender, registered and removed with it. -/
structure PresenceRoom where
  participants : Keyed PresenceParticipant.sessionId

namespace PresenceRoom

def empty : PresenceRoom := ⟨Keyed.empty⟩

def broadcastExcept (room : PresenceRoom) (sessionId : Nat) (msg : PresenceMessage) :
    List (Nat × PresenceMessage) :=
  (room.participants.entries.filter fun p => p.sessionId ≠ sessionId).map fun p => (p.sessionId, msg)

def join (room : PresenceRoom) (p : PresenceParticipant) :
    PresenceRoom × List (Nat × PresenceMessage) :=
  (⟨room.participants.set p⟩, room.broadcastExcept p.sessionId (.presenceJoin p.entry))

/-- The whole room, the recipient included. -/
def sendRoster (room : PresenceRoom) (sessionId : Nat) : List (Nat × PresenceMessage) :=
  match room.participants.get sessionId with
  | none => []
  | some _ => [(sessionId, .presenceRoster (room.participants.entries.map PresenceParticipant.entry))]

def leave (room : PresenceRoom) (sessionId : Nat) (reason : PresenceLeaveReason) :
    PresenceRoom × List (Nat × PresenceMessage) :=
  match room.participants.get sessionId with
  | none => (room, [])
  | some p =>
      let room : PresenceRoom := ⟨room.participants.delete sessionId⟩
      (room, room.broadcastExcept sessionId (.presenceLeave p.replicaId reason))

/-- An update beyond the ceiling of the rate limiter is dropped. -/
def handleUpdate (room : PresenceRoom) (sessionId : Nat) (anchor focus : Option Identifier)
    (collapsed rateLimited : Bool) : List (Nat × PresenceMessage) :=
  match room.participants.get sessionId with
  | none => []
  | some p =>
      if rateLimited then []
      else room.broadcastExcept sessionId (.presenceUpdate p.replicaId anchor focus collapsed)

variable {room : PresenceRoom} {p q : PresenceParticipant} {sessionId : Nat}

theorem mem_join : q ∈ (room.join p).1.participants ↔
    q = p ∨ q ∈ room.participants ∧ q.sessionId ≠ p.sessionId :=
  Keyed.mem_set

theorem mem_leave {reason : PresenceLeaveReason} :
    q ∈ (room.leave sessionId reason).1.participants ↔
      q ∈ room.participants ∧ q.sessionId ≠ sessionId := by
  unfold leave
  split
  · rename_i absent
    exact ⟨fun member => ⟨member, Keyed.get_eq_none.mp absent q member⟩, And.left⟩
  · exact Keyed.mem_delete

theorem mem_broadcastExcept {msg msg' : PresenceMessage} {recipient : Nat} :
    (recipient, msg') ∈ room.broadcastExcept sessionId msg ↔
      msg' = msg ∧ recipient ≠ sessionId ∧ ∃ p ∈ room.participants, p.sessionId = recipient := by
  rw [broadcastExcept, List.mem_map]
  constructor
  · rintro ⟨p, member, same⟩
    obtain ⟨inside, other⟩ := List.mem_filter.mp member
    obtain ⟨rfl, rfl⟩ := Prod.mk.inj same
    exact ⟨rfl, of_decide_eq_true other, p, inside, rfl⟩
  · rintro ⟨rfl, other, p, inside, rfl⟩
    exact ⟨p, List.mem_filter.mpr ⟨inside, decide_eq_true other⟩, rfl⟩

/-- A session that is not in the room leaves nothing behind; another one is announced to the rest. -/
theorem leave_cases (room : PresenceRoom) (sessionId : Nat) (reason : PresenceLeaveReason) :
    (∀ p ∈ room.participants, p.sessionId ≠ sessionId) ∧ room.leave sessionId reason = (room, []) ∨
      ∃ p ∈ room.participants, p.sessionId = sessionId ∧ (room.leave sessionId reason).2 =
        (room.leave sessionId reason).1.broadcastExcept sessionId
          (.presenceLeave p.replicaId reason) := by
  unfold leave
  cases found : room.participants.get sessionId with
  | none => exact Or.inl ⟨Keyed.get_eq_none.mp found, rfl⟩
  | some p =>
      obtain ⟨inside, named⟩ := Keyed.get_eq_some.mp found
      exact Or.inr ⟨p, inside, named, rfl⟩

/-- Nobody is sent a broadcast twice. -/
theorem nodup_broadcastExcept {msg : PresenceMessage} :
    ((room.broadcastExcept sessionId msg).map Prod.fst).Nodup := by
  rw [broadcastExcept, List.map_map]
  exact room.participants.distinct.sublist (List.filter_sublist.map PresenceParticipant.sessionId)

end PresenceRoom

end ConfluenceEditor
