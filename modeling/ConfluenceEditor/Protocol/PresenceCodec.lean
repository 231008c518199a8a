/-
The binary frames of the presence channel.

An update goes both ways; a client leaves its replica id out, because the server knows who sent it.
The other three kinds of message come from the server only.
-/

import ConfluenceEditor.Protocol.ControlCodec

namespace ConfluenceEditor

open Wire Codec

inductive PresenceLeaveReason where
  | CLEAN
  | STALE
  deriving DecidableEq, Repr

structure PresenceRosterEntry where
  replicaId : Nat
  userId : String
  displayName : String
  role : SessionRole
  deriving DecidableEq, Repr

/-- The content of a frame of the presence channel. Positions are the nodes to their left; `none` is
the start of the document. -/
inductive PresenceMessage where
  | presenceUpdate (replicaId : Nat) (anchor focus : Option Identifier) (collapsed : Bool)
  | presenceJoin (entry : PresenceRosterEntry)
  | presenceLeave (replicaId : Nat) (reason : PresenceLeaveReason)
  | presenceRoster (participants : List PresenceRosterEntry)
  deriving DecidableEq, Repr

namespace Codec

def PRESENCE_CHANNEL : Nat := 0x02

def PRESENCE_UPDATE : Nat := 0x01
def PRESENCE_JOIN : Nat := 0x02
def PRESENCE_LEAVE : Nat := 0x03
def PRESENCE_ROSTER : Nat := 0x04

def SERVER_ONLY_TYPES : List Nat := [PRESENCE_JOIN, PRESENCE_LEAVE, PRESENCE_ROSTER]

def FLAG_ANCHOR_PRESENT : Nat := 0x01
def FLAG_FOCUS_PRESENT : Nat := 0x02
def FLAG_COLLAPSED : Nat := 0x04
def PRESENCE_KNOWN_FLAG_BITS : Nat := FLAG_ANCHOR_PRESENT ||| FLAG_FOCUS_PRESENT ||| FLAG_COLLAPSED

/-- The flags byte of an update. -/
def presenceFlags (anchor focus collapsed : Bool) : Nat :=
  (if anchor then FLAG_ANCHOR_PRESENT else 0) ||| (if focus then FLAG_FOCUS_PRESENT else 0) |||
    (if collapsed then FLAG_COLLAPSED else 0)

/-- The replica id comes from the server only. -/
def writePresenceReplica (direction : Direction) (replicaId : Nat) : ByteWriter Unit :=
  if direction = .serverOrigin then writeVarint replicaId else pure ()

def readPresenceReplica (direction : Direction) : ByteReader Nat :=
  if direction = .serverOrigin then readVarint else pure 0

def encodePresenceUpdatePayload (direction : Direction) (replicaId : Nat)
    (anchor focus : Option Identifier) (collapsed : Bool) : ByteWriter Unit := do
  writePresenceReplica direction replicaId
  writeByte (presenceFlags anchor.isSome focus.isSome collapsed)
  encodeOptionalStamp anchor
  encodeOptionalStamp focus

def decodePresenceUpdatePayload (direction : Direction) : ByteReader PresenceMessage := do
  let replicaId ← readPresenceReplica direction
  let flags ← readByte
  checkNoReservedBits flags PRESENCE_KNOWN_FLAG_BITS "RESERVED_BIT_SET"
    ("presenceUpdate flags byte " ++ toString flags ++ " sets a reserved bit")
  let anchor ← decodeOptionalStamp (flags &&& FLAG_ANCHOR_PRESENT ≠ 0)
  let focus ← decodeOptionalStamp (flags &&& FLAG_FOCUS_PRESENT ≠ 0)
  pure (.presenceUpdate replicaId anchor focus (flags &&& FLAG_COLLAPSED ≠ 0))

/-- A participant, as a join announces it and a roster lists it. -/
def encodeRosterEntry (p : PresenceRosterEntry) : ByteWriter Unit := do
  writeVarint p.replicaId
  encodeUuid p.userId
  encodeString p.displayName
  writeByte (sessionRoleCode p.role)

def decodeRosterEntry : ByteReader PresenceRosterEntry := do
  let replicaId ← readVarint
  let userId ← decodeUuid
  let displayName ← decodeString
  let role ← readSessionRole
  pure ⟨replicaId, userId, displayName, role⟩

def encodePresenceJoinPayload (entry : PresenceRosterEntry) : ByteWriter Unit :=
  encodeRosterEntry entry

def decodePresenceJoinPayload : ByteReader PresenceMessage := do
  let entry ← decodeRosterEntry
  pure (.presenceJoin entry)

def presenceLeaveReasonCode : PresenceLeaveReason → Nat
  | .CLEAN => 0
  | .STALE => 1

def presenceLeaveReasonOf : Nat → Option PresenceLeaveReason
  | 0 => some .CLEAN
  | 1 => some .STALE
  | _ => none

def encodePresenceLeavePayload (replicaId : Nat) (reason : PresenceLeaveReason) :
    ByteWriter Unit := do
  writeVarint replicaId
  writeByte (presenceLeaveReasonCode reason)

def decodePresenceLeavePayload : ByteReader PresenceMessage := do
  let replicaId ← readVarint
  let reason ← readKnown presenceLeaveReasonOf "UNKNOWN_PRESENCE_LEAVE_REASON"
    " is not one of the 2 defined PresenceLeaveReason values"
  pure (.presenceLeave replicaId reason)

def encodePresenceRosterPayload (participants : List PresenceRosterEntry) : ByteWriter Unit := do
  writeVarint participants.length
  writeEach encodeRosterEntry participants

def decodePresenceRosterPayload : ByteReader PresenceMessage := do
  let count ← readVarint
  let participants ← readEach decodeRosterEntry count
  pure (.presenceRoster participants)

/-! ### The frames -/

def presenceTypeOf : PresenceMessage → Nat
  | .presenceUpdate .. => PRESENCE_UPDATE
  | .presenceJoin .. => PRESENCE_JOIN
  | .presenceLeave .. => PRESENCE_LEAVE
  | .presenceRoster .. => PRESENCE_ROSTER

def encodePresencePayload (direction : Direction) : PresenceMessage → ByteWriter Unit
  | .presenceUpdate replicaId anchor focus collapsed =>
      encodePresenceUpdatePayload direction replicaId anchor focus collapsed
  | .presenceJoin entry => encodePresenceJoinPayload entry
  | .presenceLeave replicaId reason => encodePresenceLeavePayload replicaId reason
  | .presenceRoster participants => encodePresenceRosterPayload participants

/-- The payload by the type byte of the frame, one of the four known types. -/
def decodePresencePayload (direction : Direction) (messageType : Nat) :
    ByteReader PresenceMessage :=
  if messageType = PRESENCE_UPDATE then decodePresenceUpdatePayload direction
  else if messageType = PRESENCE_JOIN then decodePresenceJoinPayload
  else if messageType = PRESENCE_LEAVE then decodePresenceLeavePayload
  else decodePresenceRosterPayload

end Codec

/-- The name of a message's kind. -/
def PresenceMessage.kind : PresenceMessage → String
  | .presenceUpdate .. => "presenceUpdate"
  | .presenceJoin .. => "presenceJoin"
  | .presenceLeave .. => "presenceLeave"
  | .presenceRoster .. => "presenceRoster"

/-- The envelope and the payload of a message. -/
def encodePresenceFrame (msg : PresenceMessage) (direction : Direction) :
    Except String (List UInt8) := do
  let writer : ByteWriter Unit := do
    writeByte PROTOCOL_VERSION
    writeByte PRESENCE_CHANNEL
    writeByte (presenceTypeOf msg)
    encodePresencePayload direction msg
  let (_, bytes) ← writer.run []
  .ok bytes

/-- The envelope and the payload, before the check that nothing is left. -/
def readPresenceFrame (direction : Direction) : ByteReader PresenceMessage := do
  let protocolVersion ← readByte
  if protocolVersion ≠ PROTOCOL_VERSION then
    throw ⟨"UNSUPPORTED_PROTOCOL_VERSION", "frame declares protocol version " ++
      toString protocolVersion ++ ", this build supports " ++ toString PROTOCOL_VERSION⟩
  else do
    let channel ← readByte
    if channel ≠ PRESENCE_CHANNEL then
      throw ⟨"WRONG_CHANNEL", "expected PRESENCE (" ++ toString PRESENCE_CHANNEL ++
        "), got channel " ++ toString channel⟩
    else do
      let messageType ← readByte
      if messageType ≠ PRESENCE_UPDATE ∧ messageType ≠ PRESENCE_JOIN ∧
          messageType ≠ PRESENCE_LEAVE ∧ messageType ≠ PRESENCE_ROSTER then
        throw ⟨"UNKNOWN_MESSAGE_TYPE",
          toString messageType ++ " is not a known PRESENCE message type"⟩
      else if direction = .clientOrigin ∧ messageType ∈ SERVER_ONLY_TYPES then
        throw ⟨"MESSAGE_NOT_VALID_FROM_CLIENT", "PRESENCE message type " ++
          toString messageType ++ " is server→client only (§3.8)"⟩
      else decodePresencePayload direction messageType

def decodePresenceFrame (bytes : List UInt8) (direction : Direction) :
    Except ProtocolDecodeError PresenceMessage := do
  let (msg, remaining) ← (readPresenceFrame direction).run bytes
  if remaining ≠ [] then
    .error ⟨"TRAILING_BYTES", "frame has " ++ toString remaining.length ++
      " unconsumed byte(s) after a valid " ++ msg.kind ++ " payload"⟩
  else .ok msg

end ConfluenceEditor
