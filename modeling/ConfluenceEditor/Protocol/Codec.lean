/-
The binary frames of the channel of operations.

An encoder is a writer of bytes and a decoder a reader of them (`Library/Wire`), one pair for each
kind of message. Numbers are natural numbers: the source's are floating-point numbers, but its
varints are exact, because every partial sum of `readVarint` that is not rejected at the end stays
below `2^53`; `Protocol/Varint` reads them in floating-point numbers and compares the two.
-/

import ConfluenceEditor.Library.Wire
import ConfluenceEditor.Protocol.Messages
import Mathlib.Algebra.Group.Nat.Defs

namespace ConfluenceEditor

open SidedForest (Side)
open Wire

/-- A frame that a peer sent and this side refuses. -/
structure ProtocolDecodeError where
  reason : String
  message : String
  deriving DecidableEq, Repr

structure AckEntry where
  ackSeq : Nat
  ackedId : Identifier
  deriving DecidableEq, Repr

structure RejectEntry where
  rejectedId : Identifier
  reason : RejectReason
  deriving DecidableEq, Repr

/-- The content of a frame: a message of operations under its sequence number, or the server's answer
to operations. -/
inductive WireMessage where
  | op (seq : Nat) (msg : OpsMessage)
  | opAck (acks : List AckEntry)
  | opReject (rejects : List RejectEntry) (detail : String)
  deriving DecidableEq, Repr

/-- The side that produced a frame. -/
inductive Direction where
  | clientOrigin
  | serverOrigin
  deriving DecidableEq, Repr

namespace Codec

/-- Decoding fails with a reason. -/
abbrev ByteReader := Wire.Reader ProtocolDecodeError

/-- Encoding fails with a text (of a `RangeError`). -/
abbrev ByteWriter := Wire.Writer String

def PROTOCOL_VERSION : Nat := 0x01
def OPS_CHANNEL : Nat := 0x01

def OP_INSERT : Nat := 0x01
def OP_INSERT_RUN : Nat := 0x02
def OP_DELETE : Nat := 0x03
def OP_DELETE_BATCH : Nat := 0x04
def OP_UNDELETE : Nat := 0x05
def OP_ACK : Nat := 0x10
def OP_REJECT : Nat := 0x11

/-- `Number.MAX_SAFE_INTEGER` -/
def MAX_SAFE_INTEGER : Nat := 2 ^ 53 - 1

def MAX_VARINT_BYTES : Nat := 10

/-! ### Bytes -/

/-- The low byte of a number. -/
def writeByte (b : Nat) : ByteWriter Unit :=
  modify (· ++ [UInt8.ofNat b])

def writeBytes (chunk : List UInt8) : ByteWriter Unit :=
  modify (· ++ chunk)

def readByte : ByteReader Nat := do
  match ← get with
  | [] => throw ⟨"TRUNCATED_FRAME", "unexpected end of frame reading one byte"⟩
  | b :: remaining => do
      set remaining
      pure b.toNat

def readBytes (n : Nat) : ByteReader (List UInt8) := do
  let remaining ← get
  if remaining.length < n then
    throw ⟨"TRUNCATED_FRAME", "unexpected end of frame reading " ++ toString n ++ " bytes (" ++
      toString remaining.length ++ " remaining)"⟩
  else do
    set (remaining.drop n)
    pure (remaining.take n)

/-! ### Varints -/

/-- The groups of seven bits, the lowest first. -/
def writeVarintLoop (v : Nat) : ByteWriter Unit :=
  if high : v / 128 = 0 then writeByte (v % 128)
  else do
    writeByte (v % 128 ||| 0x80)
    writeVarintLoop (v / 128)
termination_by v
decreasing_by omega

def writeVarint (value : Nat) : ByteWriter Unit :=
  if value > MAX_SAFE_INTEGER then
    throw ("writeVarint: value " ++ toString value ++ " exceeds Number.MAX_SAFE_INTEGER")
  else writeVarintLoop value

/-- The loop of `readVarint`, with the number of bytes it may still read. -/
def readVarintLoop : Nat → Nat → Nat → ByteReader Nat
  | 0, _, _ => throw ⟨"VARINT_OVERFLOW", "varint exceeds the maximum encodable length"⟩
  | bytesLeft + 1, result, multiplier => do
      let byte ← readByte
      let result := result + (byte &&& 0x7f) * multiplier
      if byte &&& 0x80 ≠ 0 then readVarintLoop bytesLeft result (multiplier * 128)
      else pure result

def readVarint : ByteReader Nat := do
  let result ← readVarintLoop MAX_VARINT_BYTES 0 1
  if result > MAX_SAFE_INTEGER then
    throw ⟨"VARINT_OVERFLOW", "decoded varint exceeds Number.MAX_SAFE_INTEGER"⟩
  else pure result

/-! ### Stamps and text -/

def encodeStamp (id : Identifier) : ByteWriter Unit := do
  writeVarint id.c
  writeVarint id.r

def decodeStamp : ByteReader Identifier := do
  let c ← readVarint
  let r ← readVarint
  pure ⟨c, r⟩

def encodeOptionalStamp : Option Identifier → ByteWriter Unit
  | none => pure ()
  | some id => encodeStamp id

def decodeOptionalStamp (present : Bool) : ByteReader (Option Identifier) :=
  if present then do
    let id ← decodeStamp
    pure (some id)
  else pure none

/-- The UTF-8 bytes of a text. -/
def textEncode (text : List Char) : List UInt8 := text.flatMap String.utf8EncodeChar

/-- The text of UTF-8 bytes; `none` when they are not valid. -/
def textDecode (utf8 : List UInt8) : Option (List Char) :=
  (ByteArray.utf8Decode? utf8.toByteArray).map Array.toList

def isHighSurrogate (v : Nat) : Bool := 0xd800 ≤ v && v ≤ 0xdbff

def isLowSurrogate (v : Nat) : Bool := 0xdc00 ≤ v && v ≤ 0xdfff

/-- A scalar value as it is; a surrogate as the replacement character. -/
def scalarOrReplacement (v : Nat) : Char :=
  if v.isValidChar then Char.ofNat v else Char.ofNat 0xfffd

/-- The scalar values of the string of these code points: two surrogates that form a pair become one
scalar, any other surrogate is replaced when the string is encoded. -/
def scalars : List Nat → List Char
  | [] => []
  | [v] => [scalarOrReplacement v]
  | v :: w :: rest =>
      if isHighSurrogate v && isLowSurrogate w then
        Char.ofNat (0x10000 + (v - 0xd800) * 0x400 + (w - 0xdc00)) :: scalars rest
      else scalarOrReplacement v :: scalars (w :: rest)

/-- `String.fromCodePoint(...values)` -/
def fromCodePoint (values : List Nat) : Except String (List Char) :=
  match values.find? (· > 0x10ffff) with
  | some v => .error ("Invalid code point " ++ toString v)
  | none => .ok (scalars values)

/-! ### The payloads -/

def FLAG_HAS_PARENT : Nat := 0x01
def FLAG_SIDE_R : Nat := 0x02
def FLAG_BIND : Nat := 0x04
def INSERT_FLAGS_KNOWN_BITS : Nat := FLAG_HAS_PARENT ||| FLAG_SIDE_R ||| FLAG_BIND

/-- The flags byte of an insert or of a run of inserts. -/
def insertFlags (hasParent : Bool) (side : Side) (bind : Bool) : Nat :=
  let flags := 0
  let flags := if hasParent then flags ||| FLAG_HAS_PARENT else flags
  let flags := if side = .R then flags ||| FLAG_SIDE_R else flags
  if bind then flags ||| FLAG_BIND else flags

/-- Refuse a byte with a bit that this build does not know. -/
def checkNoReservedBits (byte knownBits : Nat) (reason message : String) : ByteReader Unit :=
  if byte &&& (0xff ^^^ knownBits) ≠ 0 then throw ⟨reason, message⟩ else pure ()

/-- Only the server assigns sequence numbers. -/
def readAndCheckSeq (direction : Direction) : ByteReader Nat := do
  let seq ← readVarint
  if direction = .clientOrigin ∧ seq ≠ 0 then
    throw ⟨"NONZERO_CLIENT_SEQ", "client-origin frame must have seq === 0, got " ++ toString seq⟩
  else pure seq

def encodeOpInsertPayload (seq : Nat) (op : InsertOperation) : ByteWriter Unit := do
  writeVarint seq
  writeByte (insertFlags op.parent.isSome op.side op.bind)
  encodeStamp op.id
  encodeOptionalStamp op.parent
  writeVarint op.value

def decodeOpInsertPayload (direction : Direction) : ByteReader WireMessage := do
  let seq ← readAndCheckSeq direction
  let flags ← readByte
  checkNoReservedBits flags INSERT_FLAGS_KNOWN_BITS "RESERVED_FLAG_BITS_SET"
    "OP_INSERT flags byte has a reserved bit set (bits 3-7 must be 0)"
  let id ← decodeStamp
  let parent ← decodeOptionalStamp (flags &&& FLAG_HAS_PARENT ≠ 0)
  let value ← readVarint
  let side := if flags &&& FLAG_SIDE_R ≠ 0 then Side.R else Side.L
  pure (.op seq (.opInsert ⟨id, value, parent, side, flags &&& FLAG_BIND ≠ 0⟩))

def encodeOpInsertRunPayload (seq : Nat) (firstId : Identifier) (firstParent : Option Identifier)
    (firstSide : Side) (bind : Bool) (values : List Nat) : ByteWriter Unit :=
  if values.length < 2 then
    throw "encodeOpInsertRunPayload: a run must contain at least 2 characters (n >= 2, §3.5.2)"
  else do
    writeVarint seq
    writeByte (insertFlags firstParent.isSome firstSide bind)
    encodeStamp firstId
    encodeOptionalStamp firstParent
    writeVarint values.length
    let text ← (fromCodePoint values : Except String (List Char))
    let utf8 := textEncode text
    writeVarint utf8.length
    writeBytes utf8

def decodeOpInsertRunPayload (direction : Direction) : ByteReader WireMessage := do
  let seq ← readAndCheckSeq direction
  let flags ← readByte
  checkNoReservedBits flags INSERT_FLAGS_KNOWN_BITS "RESERVED_FLAG_BITS_SET"
    "OP_INSERT_RUN flags byte has a reserved bit set (bits 3-7 must be 0)"
  let firstId ← decodeStamp
  let firstParent ← decodeOptionalStamp (flags &&& FLAG_HAS_PARENT ≠ 0)
  let firstSide := if flags &&& FLAG_SIDE_R ≠ 0 then Side.R else Side.L
  let count ← readVarint
  if count < 2 then
    throw ⟨"RUN_TOO_SHORT",
      "OP_INSERT_RUN declared count " ++ toString count ++ ", must be >= 2"⟩
  else do
    let byteLength ← readVarint
    let utf8 ← readBytes byteLength
    match textDecode utf8 with
    | none => throw ⟨"INVALID_UTF8", "OP_INSERT_RUN's utf8 field is not valid UTF-8"⟩
    | some text =>
        let values := text.map Char.toNat
        if values.length ≠ count then
          throw ⟨"RUN_LENGTH_MISMATCH", "OP_INSERT_RUN declared count " ++ toString count ++
            " but utf8 decoded to " ++ toString values.length ++ " scalar(s)"⟩
        else
          pure (.op seq
            (.opInsertRun firstId firstParent firstSide (flags &&& FLAG_BIND ≠ 0) values))

/-- A target and the identifier of the operation on it. -/
def encodeTargetPayload (seq : Nat) (id target : Identifier) : ByteWriter Unit := do
  writeVarint seq
  encodeStamp target
  writeVarint id.c
  writeVarint id.r

/-- A target, and the counter and the replica of the operation on it. -/
def decodeTargetPayload (direction : Direction) (msg : Identifier → Identifier → OpsMessage) :
    ByteReader WireMessage := do
  let seq ← readAndCheckSeq direction
  let target ← decodeStamp
  let atCounter ← readVarint
  let byReplica ← readVarint
  pure (.op seq (msg ⟨atCounter, byReplica⟩ target))

def encodeOpDeletePayload (seq : Nat) (op : DeleteOperation) : ByteWriter Unit :=
  encodeTargetPayload seq op.id op.target

def decodeOpDeletePayload (direction : Direction) : ByteReader WireMessage :=
  decodeTargetPayload direction fun id target => .opDelete ⟨id, target⟩

def encodeOpUndeletePayload (seq : Nat) (op : UndeleteOperation) : ByteWriter Unit :=
  encodeTargetPayload seq op.id op.target

def decodeOpUndeletePayload (direction : Direction) : ByteReader WireMessage :=
  decodeTargetPayload direction fun id target => .opUndelete ⟨id, target⟩

def encodeOpDeleteBatchPayload (seq atFirst replica : Nat) (targets : List Identifier) :
    ByteWriter Unit :=
  if targets.length < 2 then
    throw "encodeOpDeleteBatchPayload: a batch must contain at least 2 targets (n >= 2, §3.5.4)"
  else do
    writeVarint seq
    writeVarint replica
    writeVarint atFirst
    writeVarint targets.length
    writeEach encodeStamp targets

def decodeOpDeleteBatchPayload (direction : Direction) : ByteReader WireMessage := do
  let seq ← readAndCheckSeq direction
  let replica ← readVarint
  let atFirst ← readVarint
  let count ← readVarint
  if count < 2 then
    throw ⟨"BATCH_TOO_SHORT",
      "OP_DELETE_BATCH declared count " ++ toString count ++ ", must be >= 2"⟩
  else do
    let targets ← readEach decodeStamp count
    pure (.op seq (.opDeleteBatch atFirst replica targets))

def encodeAckEntry (ack : AckEntry) : ByteWriter Unit := do
  writeVarint ack.ackSeq
  encodeStamp ack.ackedId

def decodeAckEntry : ByteReader AckEntry := do
  let ackSeq ← readVarint
  let ackedId ← decodeStamp
  pure ⟨ackSeq, ackedId⟩

def encodeOpAckPayload (acks : List AckEntry) : ByteWriter Unit := do
  writeVarint acks.length
  writeEach encodeAckEntry acks

def decodeOpAckPayload : ByteReader WireMessage := do
  let count ← readVarint
  let acks ← readEach decodeAckEntry count
  pure (.opAck acks)

/-- The code of a reason on the wire. -/
def rejectReasonCode : RejectReason → Nat
  | .PERMISSION_DENIED => 0x01
  | .SESSION_EXPIRED => 0x02
  | .IDENTITY_MISMATCH => 0x03
  | .MALFORMED => 0x04
  | .RATE_LIMITED => 0x05
  | .OFFLINE_WINDOW_EXCEEDED => 0x06
  | .DOCUMENT_LOCKED => 0x07

/-- The reason with this code. -/
def rejectReasonOf : Nat → Option RejectReason
  | 0x01 => some .PERMISSION_DENIED
  | 0x02 => some .SESSION_EXPIRED
  | 0x03 => some .IDENTITY_MISMATCH
  | 0x04 => some .MALFORMED
  | 0x05 => some .RATE_LIMITED
  | 0x06 => some .OFFLINE_WINDOW_EXCEEDED
  | 0x07 => some .DOCUMENT_LOCKED
  | _ => none

def encodeRejectEntry (reject : RejectEntry) : ByteWriter Unit := do
  encodeStamp reject.rejectedId
  writeByte (rejectReasonCode reject.reason)

def decodeRejectEntry : ByteReader RejectEntry := do
  let rejectedId ← decodeStamp
  let reason ← readByte
  match rejectReasonOf reason with
  | some reason => pure ⟨rejectedId, reason⟩
  | none => throw ⟨"UNKNOWN_REJECT_REASON",
      toString reason ++ " is not one of the 7 defined RejectReason codes"⟩

def encodeOpRejectPayload (rejects : List RejectEntry) (detail : String) : ByteWriter Unit := do
  writeVarint rejects.length
  writeEach encodeRejectEntry rejects
  let detailBytes := textEncode detail.toList
  writeVarint detailBytes.length
  if detailBytes.length > 0 then writeBytes detailBytes else pure ()

/-- The text of this length; no bytes stand for the empty text. -/
def decodeDetail (detailLength : Nat) : ByteReader String :=
  if detailLength > 0 then do
    let detailBytes ← readBytes detailLength
    match textDecode detailBytes with
    | some detail => pure (String.ofList detail)
    | none => throw ⟨"INVALID_UTF8", "OP_REJECT's detail field is not valid UTF-8"⟩
  else pure ""

def decodeOpRejectPayload : ByteReader WireMessage := do
  let count ← readVarint
  let rejects ← readEach decodeRejectEntry count
  let detailLength ← readVarint
  let detail ← decodeDetail detailLength
  pure (.opReject rejects detail)

/-! ### The frames -/

def messageTypeOf : WireMessage → Nat
  | .op _ (.opInsert _) => OP_INSERT
  | .op _ (.opInsertRun ..) => OP_INSERT_RUN
  | .op _ (.opDelete _) => OP_DELETE
  | .op _ (.opDeleteBatch ..) => OP_DELETE_BATCH
  | .op _ (.opUndelete _) => OP_UNDELETE
  | .opAck _ => OP_ACK
  | .opReject .. => OP_REJECT

/-- The payload by the kind of the message. -/
def encodePayload : WireMessage → ByteWriter Unit
  | .op seq (.opInsert op) => encodeOpInsertPayload seq op
  | .op seq (.opInsertRun firstId firstParent firstSide bind values) =>
      encodeOpInsertRunPayload seq firstId firstParent firstSide bind values
  | .op seq (.opDelete op) => encodeOpDeletePayload seq op
  | .op seq (.opDeleteBatch atFirst replica targets) =>
      encodeOpDeleteBatchPayload seq atFirst replica targets
  | .op seq (.opUndelete op) => encodeOpUndeletePayload seq op
  | .opAck acks => encodeOpAckPayload acks
  | .opReject rejects detail => encodeOpRejectPayload rejects detail

/-- The payload by the type byte of the frame. -/
def decodePayload (direction : Direction) (messageType : Nat) : ByteReader WireMessage :=
  if messageType = OP_INSERT then decodeOpInsertPayload direction
  else if messageType = OP_INSERT_RUN then decodeOpInsertRunPayload direction
  else if messageType = OP_DELETE then decodeOpDeletePayload direction
  else if messageType = OP_DELETE_BATCH then decodeOpDeleteBatchPayload direction
  else if messageType = OP_UNDELETE then decodeOpUndeletePayload direction
  else if messageType = OP_ACK then decodeOpAckPayload
  else if messageType = OP_REJECT then decodeOpRejectPayload
  else throw ⟨"UNKNOWN_MESSAGE_TYPE",
    toString messageType ++ " is not a known OPS message type"⟩

end Codec

open Codec

/-- The name of a message's kind. -/
def WireMessage.kind : WireMessage → String
  | .op _ (.opInsert _) => "opInsert"
  | .op _ (.opInsertRun ..) => "opInsertRun"
  | .op _ (.opDelete _) => "opDelete"
  | .op _ (.opDeleteBatch ..) => "opDeleteBatch"
  | .op _ (.opUndelete _) => "opUndelete"
  | .opAck _ => "opAck"
  | .opReject .. => "opReject"

/-- The envelope and the payload of a message. -/
def encodeFrame (msg : WireMessage) : Except String (List UInt8) := do
  let writer : ByteWriter Unit := do
    writeByte PROTOCOL_VERSION
    writeByte OPS_CHANNEL
    writeByte (messageTypeOf msg)
    encodePayload msg
  let (_, bytes) ← writer.run []
  .ok bytes

/-- The envelope and the payload, before the check that nothing is left. -/
def readFrame (direction : Direction) : ByteReader WireMessage := do
  let protocolVersion ← readByte
  if protocolVersion ≠ PROTOCOL_VERSION then
    throw ⟨"UNSUPPORTED_PROTOCOL_VERSION", "frame declares protocol version " ++
      toString protocolVersion ++ ", this build supports " ++ toString PROTOCOL_VERSION⟩
  else do
    let channel ← readByte
    if channel ≠ OPS_CHANNEL then
      throw ⟨"UNSUPPORTED_CHANNEL", "channel " ++ toString channel ++
        " is not implemented — only OPS (" ++ toString OPS_CHANNEL ++ ") exists as of Phase 7"⟩
    else do
      let messageType ← readByte
      if direction = .clientOrigin ∧ (messageType = OP_ACK ∨ messageType = OP_REJECT) then
        throw ⟨"MESSAGE_NOT_VALID_FROM_CLIENT", "OP_ACK/OP_REJECT are server→client only " ++
          "(§3.5.7/§3.5.8) and cannot be a client-origin frame"⟩
      else decodePayload direction messageType

def decodeFrame (bytes : List UInt8) (direction : Direction) :
    Except ProtocolDecodeError WireMessage := do
  let (msg, remaining) ← (readFrame direction).run bytes
  if remaining ≠ [] then
    .error ⟨"TRAILING_BYTES", "frame has " ++ toString remaining.length ++
      " unconsumed byte(s) after a valid " ++ msg.kind ++ " payload"⟩
  else .ok msg

end ConfluenceEditor
