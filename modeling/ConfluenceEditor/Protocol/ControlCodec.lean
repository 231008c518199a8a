/-
The binary frames of the control channel.

One encoder and one decoder for each of the fourteen kinds of message, over the primitives of the
channel of operations. A chunk of a catch-up embeds whole frames of operations; their decoder throws
a plain `Error` when such a frame is not a single operation, and so decoding fails in two ways
(`Thrown`). Texts are well-formed strings.
-/

import ConfluenceEditor.Protocol.Codec

namespace ConfluenceEditor

open Wire Codec

/-- What a decoder throws: the error of the protocol, or another `Error`. -/
inductive Thrown where
  | protocolDecodeError (e : ProtocolDecodeError)
  | error (message : String)
  deriving DecidableEq, Repr

inductive SnapshotForm where
  | PLAIN_TEXT
  | STRUCTURE
  deriving DecidableEq, Repr

inductive GoodbyeReason where
  | SHUTDOWN
  | EVICTED
  | PERMISSION_REVOKED
  | PROTOCOL_VERSION_RETIRED
  deriving DecidableEq, Repr

structure ParticipantInfo where
  replicaId : Nat
  userId : String
  displayName : String
  deriving DecidableEq, Repr

/-- The content of a frame of the control channel. -/
inductive WireControlMessage where
  | hello (documentId : String) (ticket : List UInt8) (lastServerSeq : Nat)
      (unacked : List Identifier) (clientCapabilities : Nat)
  | welcome (sessionId : String) (replicaId : Nat) (role : SessionRole) (serverSeq : Nat)
      (syncMode : SyncMode) (participants : List ParticipantInfo)
  | snapshot (seq : Nat) (form : SnapshotForm) (body : List UInt8)
  | catchupBegin (fromSeq toSeq totalOps : Nat)
  | catchupChunk (throughSeq : Nat) (ops : List Operation)
  | catchupEnd (toSeq totalOps : Nat)
  | alreadyHave (alreadyHave : List Identifier)
  | syncComplete (lastServerSeq resentCount : Nat)
  | permissionChanged (role : Option SessionRole) (effectiveAtSeq : Nat)
  | error (code : Nat) (fatal : Bool) (message : String)
  | ping (clientTimeMs lastAppliedSeq : Nat)
  | pong (clientTimeMs serverSeq serverTimeMs : Nat)
  | leave (lastAppliedSeq : Nat)
  | goodbye (reason : GoodbyeReason) (retryAfterMs : Nat)
  deriving DecidableEq, Repr

namespace Codec

def CONTROL_CHANNEL : Nat := 0x03

def HELLO : Nat := 0x01
def WELCOME : Nat := 0x02
def SNAPSHOT : Nat := 0x03
def CATCHUP_BEGIN : Nat := 0x04
def CATCHUP_CHUNK : Nat := 0x05
def CATCHUP_END : Nat := 0x06
def ALREADY_HAVE : Nat := 0x07
def SYNC_COMPLETE : Nat := 0x08
def PERMISSION_CHANGED : Nat := 0x09
def ERROR : Nat := 0x0a
def PING : Nat := 0x0b
def PONG : Nat := 0x0c
def LEAVE : Nat := 0x0d
def GOODBYE : Nat := 0x0e

def CLIENT_ORIGIN_TYPES : List Nat := [HELLO, SYNC_COMPLETE, PING, LEAVE]

def SERVER_ORIGIN_TYPES : List Nat :=
  [WELCOME, SNAPSHOT, CATCHUP_BEGIN, CATCHUP_CHUNK, CATCHUP_END, ALREADY_HAVE, PONG, GOODBYE, ERROR,
    PERMISSION_CHANGED]

def IMPLEMENTED_CONTROL_TYPES : List Nat :=
  [HELLO, WELCOME, SNAPSHOT, CATCHUP_BEGIN, CATCHUP_CHUNK, CATCHUP_END, ALREADY_HAVE, SYNC_COMPLETE,
    PERMISSION_CHANGED, ERROR, PING, PONG, LEAVE, GOODBYE]

def isImplementedControlType (messageType : Nat) : Bool :=
  decide (messageType ∈ IMPLEMENTED_CONTROL_TYPES)

/-! ### Strings and UUIDs -/

/-- The length in bytes and the UTF-8 bytes. -/
def encodeString (value : String) : ByteWriter Unit := do
  let utf8 := textEncode value.toList
  writeVarint utf8.length
  writeBytes utf8

def decodeString : ByteReader String := do
  let length ← readVarint
  let utf8 ← readBytes length
  match textDecode utf8 with
  | some text => pure (String.ofList text)
  | none => throw ⟨"INVALID_UTF8", "string field is not valid UTF-8"⟩

/-- The value of a hexadecimal digit, in either case. -/
def hexValue (digit : Char) : Option Nat :=
  if '0' ≤ digit ∧ digit ≤ '9' then some (digit.toNat - '0'.toNat)
  else if 'a' ≤ digit ∧ digit ≤ 'f' then some (digit.toNat - 'a'.toNat + 10)
  else if 'A' ≤ digit ∧ digit ≤ 'F' then some (digit.toNat - 'A'.toNat + 10)
  else none

/-- The digits of one group of the pattern, and what follows them. -/
def hexGroup : Nat → List Char → Option (List Nat × List Char)
  | 0, rest => some ([], rest)
  | _ + 1, [] => none
  | n + 1, digit :: rest => do
      let value ← hexValue digit
      let (values, rest) ← hexGroup n rest
      some (value :: values, rest)

/-- The groups of the pattern, with dashes between them and nothing behind the last one. -/
def hexGroups : List Nat → List Char → Option (List Nat)
  | [], [] => some []
  | [], _ :: _ => none
  | [n], text => do
      let (values, rest) ← hexGroup n text
      if rest = [] then some values else none
  | n :: m :: groups, text => do
      let (values, rest) ← hexGroup n text
      match rest with
      | '-' :: rest => do
          let more ← hexGroups (m :: groups) rest
          some (values ++ more)
      | _ => none

/-- `UUID_PATTERN`: the values of the hexadecimal digits of a UUID. -/
def uuidDigits (uuid : String) : Option (List Nat) := hexGroups [8, 4, 4, 4, 12] uuid.toList

/-- One byte for each pair of digits. -/
def writeHex : List Nat → ByteWriter Unit
  | high :: low :: digits => do
      writeByte (high * 16 + low)
      writeHex digits
  | _ => pure ()

def encodeUuid (uuid : String) : ByteWriter Unit :=
  match uuidDigits uuid with
  | none => throw ("encodeUuid: \"" ++ uuid ++ "\" is not a canonical UUID string")
  | some digits => writeHex digits

/-- `b.toString(16).padStart(2, "0")` -/
def hexByte (b : UInt8) : List Char := [Nat.digitChar (b.toNat / 16), Nat.digitChar (b.toNat % 16)]

/-- The text form of sixteen bytes. -/
def uuidText (bytes : List UInt8) : List Char :=
  let hex := bytes.flatMap hexByte
  hex.take 8 ++ '-' :: (hex.drop 8).take 4 ++ '-' :: (hex.drop 12).take 4 ++
    '-' :: (hex.drop 16).take 4 ++ '-' :: (hex.drop 20).take 12

def decodeUuid : ByteReader String := do
  let bytes ← readBytes 16
  pure (String.ofList (uuidText bytes))

/-! ### Enumerations -/

def sessionRoleCode : SessionRole → Nat
  | .VIEWER => 0
  | .EDITOR => 1
  | .OWNER => 2

def sessionRoleOf : Nat → Option SessionRole
  | 0 => some .VIEWER
  | 1 => some .EDITOR
  | 2 => some .OWNER
  | _ => none

def syncModeCode : SyncMode → Nat
  | .SNAPSHOT => 0
  | .CATCHUP => 1
  | .ALREADY_CURRENT => 2

def syncModeOf : Nat → Option SyncMode
  | 0 => some .SNAPSHOT
  | 1 => some .CATCHUP
  | 2 => some .ALREADY_CURRENT
  | _ => none

def snapshotFormCode : SnapshotForm → Nat
  | .PLAIN_TEXT => 0
  | .STRUCTURE => 1

def snapshotFormOf : Nat → Option SnapshotForm
  | 0 => some .PLAIN_TEXT
  | 1 => some .STRUCTURE
  | _ => none

def goodbyeReasonCode : GoodbyeReason → Nat
  | .SHUTDOWN => 0
  | .EVICTED => 1
  | .PERMISSION_REVOKED => 2
  | .PROTOCOL_VERSION_RETIRED => 3

def goodbyeReasonOf : Nat → Option GoodbyeReason
  | 0 => some .SHUTDOWN
  | 1 => some .EVICTED
  | 2 => some .PERMISSION_REVOKED
  | 3 => some .PROTOCOL_VERSION_RETIRED
  | _ => none

/-- A byte that stands for a member of an enumeration. -/
def readKnown {α : Type} (known : Nat → Option α) (reason description : String) : ByteReader α := do
  let byte ← readByte
  match known byte with
  | some value => pure value
  | none => throw ⟨reason, toString byte ++ description⟩

def readSessionRole : ByteReader SessionRole :=
  readKnown sessionRoleOf "UNKNOWN_ROLE" " is not one of the 3 defined SessionRole values"

/-! ### The operations of a chunk -/

/-- A frame with one operation; its sequence number is a placeholder. -/
def catchupMessage : Operation → WireMessage
  | .insert op => .op 0 (.opInsert op)
  | .delete op => .op 0 (.opDelete op)
  | .undelete op => .op 0 (.opUndelete op)

/-- One operation as a complete frame. -/
def encodeCatchupOperation (op : Operation) : Except String (List UInt8) :=
  encodeFrame (catchupMessage op)

/-- The operation of a frame that has exactly one. -/
def singleOperation : WireMessage → Option Operation
  | .op _ (.opInsert op) => some (.insert op)
  | .op _ (.opDelete op) => some (.delete op)
  | .op _ (.opUndelete op) => some (.undelete op)
  | _ => none

def decodeCatchupOperation (bytes : List UInt8) : Except Thrown Operation :=
  match decodeFrame bytes .clientOrigin with
  | .error e => .error (.protocolDecodeError e)
  | .ok msg =>
      match singleOperation msg with
      | some op => .ok op
      | none => .error (.error ("decodeCatchupOperation: expected a single-operation frame " ++
          "(opInsert/opDelete/opUndelete), got " ++ msg.kind ++ " — payload is corrupt"))

/-! ### The payloads -/

/-- A decoder of this channel. -/
abbrev ControlReader := Wire.Reader Thrown

/-- A primitive throws errors of the protocol only. -/
def primitive {α : Type} (p : ByteReader α) : ControlReader α := p.mapError .protocolDecodeError

def encodeHelloPayload (documentId : String) (ticket : List UInt8) (lastServerSeq : Nat)
    (unacked : List Identifier) (clientCapabilities : Nat) : ByteWriter Unit := do
  encodeUuid documentId
  writeVarint ticket.length
  writeBytes ticket
  writeVarint lastServerSeq
  writeVarint unacked.length
  writeEach encodeStamp unacked
  writeVarint clientCapabilities

def decodeHelloPayload : ByteReader WireControlMessage := do
  let documentId ← decodeUuid
  let ticketLength ← readVarint
  let ticket ← readBytes ticketLength
  let lastServerSeq ← readVarint
  let unackedCount ← readVarint
  let unacked ← readEach decodeStamp unackedCount
  let clientCapabilities ← readVarint
  pure (.hello documentId ticket lastServerSeq unacked clientCapabilities)

def encodeParticipant (p : ParticipantInfo) : ByteWriter Unit := do
  writeVarint p.replicaId
  encodeUuid p.userId
  encodeString p.displayName

def decodeParticipant : ByteReader ParticipantInfo := do
  let replicaId ← readVarint
  let userId ← decodeUuid
  let displayName ← decodeString
  pure ⟨replicaId, userId, displayName⟩

def encodeWelcomePayload (sessionId : String) (replicaId : Nat) (role : SessionRole)
    (serverSeq : Nat) (syncMode : SyncMode) (participants : List ParticipantInfo) :
    ByteWriter Unit := do
  encodeUuid sessionId
  writeVarint replicaId
  writeByte (sessionRoleCode role)
  writeVarint serverSeq
  writeByte (syncModeCode syncMode)
  writeVarint participants.length
  writeEach encodeParticipant participants

def decodeWelcomePayload : ByteReader WireControlMessage := do
  let sessionId ← decodeUuid
  let replicaId ← readVarint
  let role ← readSessionRole
  let serverSeq ← readVarint
  let syncMode ← readKnown syncModeOf "UNKNOWN_SYNC_MODE"
    " is not one of the 3 defined SyncMode values"
  let participantCount ← readVarint
  let participants ← readEach decodeParticipant participantCount
  pure (.welcome sessionId replicaId role serverSeq syncMode participants)

def encodeSnapshotPayload (seq : Nat) (form : SnapshotForm) (body : List UInt8) :
    ByteWriter Unit := do
  writeVarint seq
  writeByte (snapshotFormCode form)
  writeVarint body.length
  writeBytes body

def decodeSnapshotPayload : ByteReader WireControlMessage := do
  let seq ← readVarint
  let form ← readKnown snapshotFormOf "UNKNOWN_SNAPSHOT_FORM"
    " is not one of the 2 defined SnapshotForm values"
  let byteLength ← readVarint
  let body ← readBytes byteLength
  pure (.snapshot seq form body)

/-- Two numbers, one behind the other. -/
def encodePairPayload (first second : Nat) : ByteWriter Unit := do
  writeVarint first
  writeVarint second

def decodePairPayload (msg : Nat → Nat → WireControlMessage) : ByteReader WireControlMessage := do
  let first ← readVarint
  let second ← readVarint
  pure (msg first second)

/-- Three numbers, one behind the other. -/
def encodeTriplePayload (first second third : Nat) : ByteWriter Unit := do
  writeVarint first
  writeVarint second
  writeVarint third

def decodeTriplePayload (msg : Nat → Nat → Nat → WireControlMessage) :
    ByteReader WireControlMessage := do
  let first ← readVarint
  let second ← readVarint
  let third ← readVarint
  pure (msg first second third)

def encodeCatchupBeginPayload (fromSeq toSeq totalOps : Nat) : ByteWriter Unit :=
  encodeTriplePayload fromSeq toSeq totalOps

def decodeCatchupBeginPayload : ByteReader WireControlMessage :=
  decodeTriplePayload .catchupBegin

/-- The length of an operation's frame, and the frame. -/
def encodeChunkEntry (op : Operation) : ByteWriter Unit := do
  let frame ← (encodeCatchupOperation op : Except String (List UInt8))
  writeVarint frame.length
  writeBytes frame

def decodeChunkEntry : ControlReader Operation := do
  let frameLength ← primitive readVarint
  let frame ← primitive (readBytes frameLength)
  (decodeCatchupOperation frame : Except Thrown Operation)

def encodeCatchupChunkPayload (throughSeq : Nat) (ops : List Operation) : ByteWriter Unit := do
  writeVarint throughSeq
  writeVarint ops.length
  writeEach encodeChunkEntry ops

def decodeCatchupChunkPayload : ControlReader WireControlMessage := do
  let throughSeq ← primitive readVarint
  let count ← primitive readVarint
  let ops ← readEach decodeChunkEntry count
  pure (.catchupChunk throughSeq ops)

def encodeCatchupEndPayload (toSeq totalOps : Nat) : ByteWriter Unit :=
  encodePairPayload toSeq totalOps

def decodeCatchupEndPayload : ByteReader WireControlMessage := decodePairPayload .catchupEnd

def encodeAlreadyHavePayload (alreadyHave : List Identifier) : ByteWriter Unit := do
  writeVarint alreadyHave.length
  writeEach encodeStamp alreadyHave

def decodeAlreadyHavePayload : ByteReader WireControlMessage := do
  let count ← readVarint
  let alreadyHave ← readEach decodeStamp count
  pure (.alreadyHave alreadyHave)

def encodeSyncCompletePayload (lastServerSeq resentCount : Nat) : ByteWriter Unit :=
  encodePairPayload lastServerSeq resentCount

def decodeSyncCompletePayload : ByteReader WireControlMessage := decodePairPayload .syncComplete

def PERMISSION_CHANGED_FLAG_HAS_ROLE : Nat := 0x01

/-- The flags byte: whether a role follows. -/
def permissionChangedFlags (hasRole : Bool) : Nat :=
  if hasRole then PERMISSION_CHANGED_FLAG_HAS_ROLE else 0

def writeOptionalRole : Option SessionRole → ByteWriter Unit
  | none => pure ()
  | some role => writeByte (sessionRoleCode role)

def encodePermissionChangedPayload (role : Option SessionRole) (effectiveAtSeq : Nat) :
    ByteWriter Unit := do
  writeByte (permissionChangedFlags role.isSome)
  writeOptionalRole role
  writeVarint effectiveAtSeq

/-- The role, if the flag announces one. -/
def readOptionalRole (present : Bool) : ByteReader (Option SessionRole) :=
  if present then do
    let role ← readSessionRole
    pure (some role)
  else pure none

def decodePermissionChangedPayload : ByteReader WireControlMessage := do
  let flags ← readByte
  checkNoReservedBits flags PERMISSION_CHANGED_FLAG_HAS_ROLE "RESERVED_BIT_SET"
    ("permissionChanged flags byte " ++ toString flags ++ " sets a reserved bit")
  let role ← readOptionalRole (flags &&& PERMISSION_CHANGED_FLAG_HAS_ROLE ≠ 0)
  let effectiveAtSeq ← readVarint
  pure (.permissionChanged role effectiveAtSeq)

def encodePingPayload (clientTimeMs lastAppliedSeq : Nat) : ByteWriter Unit :=
  encodePairPayload clientTimeMs lastAppliedSeq

def decodePingPayload : ByteReader WireControlMessage := decodePairPayload .ping

def encodePongPayload (clientTimeMs serverSeq serverTimeMs : Nat) : ByteWriter Unit :=
  encodeTriplePayload clientTimeMs serverSeq serverTimeMs

def decodePongPayload : ByteReader WireControlMessage := decodeTriplePayload .pong

def encodeLeavePayload (lastAppliedSeq : Nat) : ByteWriter Unit := writeVarint lastAppliedSeq

def decodeLeavePayload : ByteReader WireControlMessage := do
  let lastAppliedSeq ← readVarint
  pure (.leave lastAppliedSeq)

def encodeGoodbyePayload (reason : GoodbyeReason) (retryAfterMs : Nat) : ByteWriter Unit := do
  writeByte (goodbyeReasonCode reason)
  writeVarint retryAfterMs

def decodeGoodbyePayload : ByteReader WireControlMessage := do
  let reason ← readKnown goodbyeReasonOf "UNKNOWN_GOODBYE_REASON"
    " is not one of the 4 defined GoodbyeReason values"
  let retryAfterMs ← readVarint
  pure (.goodbye reason retryAfterMs)

def encodeErrorPayload (code : Nat) (fatal : Bool) (message : String) : ByteWriter Unit :=
  if code > 0xff then
    throw ("encodeErrorPayload: code " ++ toString code ++ " does not fit in a uint8")
  else do
    writeByte code
    writeByte (if fatal then 1 else 0)
    encodeString message

def decodeErrorPayload : ByteReader WireControlMessage := do
  let code ← readByte
  let fatal ← readByte
  let message ← decodeString
  pure (.error code (fatal ≠ 0) message)

/-! ### The frames -/

def controlTypeOf : WireControlMessage → Nat
  | .hello .. => HELLO
  | .welcome .. => WELCOME
  | .snapshot .. => SNAPSHOT
  | .catchupBegin .. => CATCHUP_BEGIN
  | .catchupChunk .. => CATCHUP_CHUNK
  | .catchupEnd .. => CATCHUP_END
  | .alreadyHave .. => ALREADY_HAVE
  | .syncComplete .. => SYNC_COMPLETE
  | .permissionChanged .. => PERMISSION_CHANGED
  | .ping .. => PING
  | .pong .. => PONG
  | .leave .. => LEAVE
  | .goodbye .. => GOODBYE
  | .error .. => ERROR

def encodeControlPayload : WireControlMessage → ByteWriter Unit
  | .hello documentId ticket lastServerSeq unacked clientCapabilities =>
      encodeHelloPayload documentId ticket lastServerSeq unacked clientCapabilities
  | .welcome sessionId replicaId role serverSeq syncMode participants =>
      encodeWelcomePayload sessionId replicaId role serverSeq syncMode participants
  | .snapshot seq form body => encodeSnapshotPayload seq form body
  | .catchupBegin fromSeq toSeq totalOps => encodeCatchupBeginPayload fromSeq toSeq totalOps
  | .catchupChunk throughSeq ops => encodeCatchupChunkPayload throughSeq ops
  | .catchupEnd toSeq totalOps => encodeCatchupEndPayload toSeq totalOps
  | .alreadyHave alreadyHave => encodeAlreadyHavePayload alreadyHave
  | .syncComplete lastServerSeq resentCount => encodeSyncCompletePayload lastServerSeq resentCount
  | .permissionChanged role effectiveAtSeq => encodePermissionChangedPayload role effectiveAtSeq
  | .ping clientTimeMs lastAppliedSeq => encodePingPayload clientTimeMs lastAppliedSeq
  | .pong clientTimeMs serverSeq serverTimeMs =>
      encodePongPayload clientTimeMs serverSeq serverTimeMs
  | .leave lastAppliedSeq => encodeLeavePayload lastAppliedSeq
  | .goodbye reason retryAfterMs => encodeGoodbyePayload reason retryAfterMs
  | .error code fatal message => encodeErrorPayload code fatal message

/-- The payload by the type byte of the frame. -/
def decodeControlPayload (messageType : Nat) : ControlReader WireControlMessage :=
  if messageType = HELLO then primitive decodeHelloPayload
  else if messageType = WELCOME then primitive decodeWelcomePayload
  else if messageType = SNAPSHOT then primitive decodeSnapshotPayload
  else if messageType = CATCHUP_BEGIN then primitive decodeCatchupBeginPayload
  else if messageType = CATCHUP_CHUNK then decodeCatchupChunkPayload
  else if messageType = CATCHUP_END then primitive decodeCatchupEndPayload
  else if messageType = ALREADY_HAVE then primitive decodeAlreadyHavePayload
  else if messageType = SYNC_COMPLETE then primitive decodeSyncCompletePayload
  else if messageType = PERMISSION_CHANGED then primitive decodePermissionChangedPayload
  else if messageType = PING then primitive decodePingPayload
  else if messageType = PONG then primitive decodePongPayload
  else if messageType = LEAVE then primitive decodeLeavePayload
  else if messageType = GOODBYE then primitive decodeGoodbyePayload
  else if messageType = ERROR then primitive decodeErrorPayload
  else throw (.protocolDecodeError ⟨"UNKNOWN_MESSAGE_TYPE",
    toString messageType ++ " is not a known CONTROL message type"⟩)

end Codec

/-- The name of a message's kind. -/
def WireControlMessage.kind : WireControlMessage → String
  | .hello .. => "hello"
  | .welcome .. => "welcome"
  | .snapshot .. => "snapshot"
  | .catchupBegin .. => "catchupBegin"
  | .catchupChunk .. => "catchupChunk"
  | .catchupEnd .. => "catchupEnd"
  | .alreadyHave .. => "alreadyHave"
  | .syncComplete .. => "syncComplete"
  | .permissionChanged .. => "permissionChanged"
  | .ping .. => "ping"
  | .pong .. => "pong"
  | .leave .. => "leave"
  | .goodbye .. => "goodbye"
  | .error .. => "error"

/-- The envelope and the payload of a message. -/
def encodeControlFrame (msg : WireControlMessage) : Except String (List UInt8) := do
  let writer : ByteWriter Unit := do
    writeByte PROTOCOL_VERSION
    writeByte CONTROL_CHANNEL
    writeByte (controlTypeOf msg)
    encodeControlPayload msg
  let (_, bytes) ← writer.run []
  .ok bytes

/-- The version and the channel of a frame, and its type. -/
def readControlEnvelope (direction : Direction) : ByteReader Nat := do
  let protocolVersion ← readByte
  if protocolVersion ≠ PROTOCOL_VERSION then
    throw ⟨"UNSUPPORTED_PROTOCOL_VERSION", "frame declares protocol version " ++
      toString protocolVersion ++ ", this build supports " ++ toString PROTOCOL_VERSION⟩
  else do
    let channel ← readByte
    if channel ≠ CONTROL_CHANNEL then
      throw ⟨"WRONG_CHANNEL", "expected CONTROL (" ++ toString CONTROL_CHANNEL ++
        "), got channel " ++ toString channel⟩
    else do
      let messageType ← readByte
      if isImplementedControlType messageType = false then
        throw ⟨"UNIMPLEMENTED_MESSAGE_TYPE", "CONTROL message type " ++ toString messageType ++
          " is reserved but not implemented until a later phase"⟩
      else if direction = .clientOrigin ∧ messageType ∈ SERVER_ORIGIN_TYPES then
        throw ⟨"MESSAGE_NOT_VALID_FROM_CLIENT", "CONTROL message type " ++
          toString messageType ++ " is server→client only (§3.6)"⟩
      else if direction = .serverOrigin ∧ messageType ∈ CLIENT_ORIGIN_TYPES then
        throw ⟨"MESSAGE_NOT_VALID_FROM_SERVER", "CONTROL message type " ++
          toString messageType ++ " is client→server only (§3.6)"⟩
      else pure messageType

/-- The envelope and the payload, before the check that nothing is left. -/
def readControlFrame (direction : Direction) : ControlReader WireControlMessage := do
  let messageType ← primitive (readControlEnvelope direction)
  decodeControlPayload messageType

def decodeControlFrame (bytes : List UInt8) (direction : Direction) :
    Except Thrown WireControlMessage := do
  let (msg, remaining) ← (readControlFrame direction).run bytes
  if remaining ≠ [] then
    .error (.protocolDecodeError ⟨"TRAILING_BYTES", "frame has " ++ toString remaining.length ++
      " unconsumed byte(s) after a valid " ++ msg.kind ++ " payload"⟩)
  else .ok msg

end ConfluenceEditor
