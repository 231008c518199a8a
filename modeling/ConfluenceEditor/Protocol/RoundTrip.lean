/-
Round trips of the frames.

Each decoder reads back what its encoder writes (`Codes`), field by field, and returns only values
that can be encoded again (`Yields`). So every message that a side can send survives the way through
its frame, and so does every message that was decoded (`codec_round_trip`).
-/

import ConfluenceEditor.Library.Throwing
import ConfluenceEditor.Protocol.Codec
import Mathlib.Tactic.Ring

namespace ConfluenceEditor

open SidedForest (Side)
open Wire

namespace Codec

/-! ### Bytes -/

theorem low_seven_bits (byte : Nat) : byte &&& 0x7f = byte % 128 :=
  Nat.and_two_pow_sub_one_eq_mod byte 7

theorem continuation_bit {low7 : Nat} (small : low7 < 128) : low7 ||| 0x80 = low7 + 128 := by
  rw [Nat.or_comm, Nat.add_comm]
  exact (Nat.two_pow_add_eq_or_of_lt (i := 7) small 1).symm

theorem continues_iff {byte : Nat} (small : byte < 256) : byte &&& 0x80 ≠ 0 ↔ 128 ≤ byte :=
  (by decide +kernel : ∀ byte < 256, byte &&& 0x80 ≠ 0 ↔ 128 ≤ byte) byte small

theorem writes_byte (b : Nat) : Writes (writeByte b) [UInt8.ofNat b] := fun _ => rfl

theorem reads_byte {b : Nat} (small : b < 256) : Reads readByte [UInt8.ofNat b] b := by
  intro rest
  show Except.ok ((UInt8.ofNat b).toNat, rest) = _
  rw [UInt8.toNat_ofNat', Nat.mod_eq_of_lt small]

theorem codes_byte {b : Nat} (small : b < 256) : Codes (writeByte b) readByte b :=
  ⟨_, writes_byte b, reads_byte small⟩

theorem yields_byte : Yields readByte (· < 256) := by
  intro s b s' ran
  cases s with
  | nil => cases ran
  | cons first rest =>
      obtain ⟨rfl, -⟩ := Prod.mk.inj (Except.ok.inj ran)
      exact first.toNat_lt

theorem run_readBytes (n : Nat) (s : List UInt8) :
    (readBytes n).run s =
      if s.length < n then
        .error ⟨"TRUNCATED_FRAME", "unexpected end of frame reading " ++ toString n ++ " bytes (" ++
          toString s.length ++ " remaining)"⟩
      else .ok (s.take n, s.drop n) := by
  unfold readBytes
  rw [StateT.run_bind, StateT.run_get]
  by_cases short : s.length < n
  · simp only [pure, Except.pure, bind, Except.bind, if_pos short]
    rfl
  · simp only [pure, Except.pure, bind, Except.bind, if_neg short]
    rfl

theorem reads_bytes (chunk : List UInt8) : Reads (readBytes chunk.length) chunk chunk := by
  intro rest
  rw [run_readBytes, if_neg (by simp), List.take_left, List.drop_left]

theorem codes_bytes (chunk : List UInt8) :
    Codes (writeBytes chunk) (readBytes chunk.length) chunk :=
  ⟨chunk, fun _ => rfl, reads_bytes chunk⟩

theorem yields_bytes (n : Nat) : Yields (readBytes n) fun chunk => chunk.length = n := by
  intro s chunk s' ran
  rw [run_readBytes] at ran
  split_ifs at ran with short
  obtain ⟨rfl, -⟩ := Prod.mk.inj (Except.ok.inj ran)
  rw [List.length_take]
  omega

/-! ### Varints -/

/-- The last group of a varint. -/
theorem codes_lastGroup {v : Nat} (last : v < 128) (bytesLeft result multiplier : Nat) :
    Codes (writeByte v) (readVarintLoop (bytesLeft + 1) result multiplier)
      (result + v * multiplier) := by
  have stop : ¬ v &&& 0x80 ≠ 0 := by
    rw [continues_iff (by omega)]
    omega
  refine (codes_byte (by omega)).done ?_
  simp only [if_neg stop]
  rw [low_seven_bits, Nat.mod_eq_of_lt last]

/-- The loop adds the number it reads, scaled, to what it read before. -/
theorem codes_varintLoop (bytesLeft : Nat) {v : Nat} (fits : v < 128 ^ (bytesLeft + 1))
    (result multiplier : Nat) :
    Codes (writeVarintLoop v) (readVarintLoop (bytesLeft + 1) result multiplier)
      (result + v * multiplier) := by
  induction bytesLeft generalizing v result multiplier with
  | zero =>
      have last : v < 128 := by simpa using fits
      rw [writeVarintLoop, dif_pos (Nat.div_eq_of_lt last), Nat.mod_eq_of_lt last]
      exact codes_lastGroup last 0 result multiplier
  | succ bytesLeft ih =>
      rw [writeVarintLoop]
      by_cases last : v / 128 = 0
      · have small : v < 128 := by omega
        rw [dif_pos last, Nat.mod_eq_of_lt small]
        exact codes_lastGroup small _ result multiplier
      · rw [dif_neg last]
        have low : v % 128 < 128 := Nat.mod_lt _ (by decide)
        have fits' : v / 128 < 128 ^ (bytesLeft + 1) := by
          rw [Nat.div_lt_iff_lt_mul (by decide), ← Nat.pow_succ]
          exact fits
        have sum : result + v * multiplier =
            result + (v % 128) * multiplier + v / 128 * (multiplier * 128) := by
          conv_lhs => rw [← Nat.mod_add_div v 128]
          ring
        rw [sum]
        refine Codes.bind (codes_byte (by rw [continuation_bit low]; omega)) ?_
        have more : (v % 128 ||| 0x80) &&& 0x80 ≠ 0 := by
          rw [continuation_bit low, continues_iff (by omega)]
          omega
        have group : (v % 128 ||| 0x80) &&& 0x7f = v % 128 := by
          rw [continuation_bit low, low_seven_bits]
          omega
        simp only [group, if_pos more]
        exact ih fits' _ _

theorem codes_varint {v : Nat} (safe : v ≤ MAX_SAFE_INTEGER) :
    Codes (writeVarint v) readVarint v := by
  have fits : v < 128 ^ MAX_VARINT_BYTES := by
    have bound : MAX_SAFE_INTEGER < 128 ^ MAX_VARINT_BYTES := by decide
    omega
  have loop := codes_varintLoop 9 fits 0 1
  rw [Nat.zero_add, Nat.mul_one] at loop
  rw [writeVarint, if_neg (Nat.not_lt.mpr safe)]
  exact loop.done (if_neg (Nat.not_lt.mpr safe))

theorem yields_varint : Yields readVarint (· ≤ MAX_SAFE_INTEGER) := by
  refine Yields.bind (Yields.trivial _) fun result _ => ?_
  refine Yields.ite (fun _ => yields_throw _) fun safe => yields_pure ?_
  exact Nat.le_of_not_lt safe

/-! ### Stamps and text -/

/-- Both numbers of an identifier can be written. -/
def SafeStamp (id : Identifier) : Prop := id.c ≤ MAX_SAFE_INTEGER ∧ id.r ≤ MAX_SAFE_INTEGER

theorem codes_stamp {id : Identifier} (safe : SafeStamp id) :
    Codes (encodeStamp id) decodeStamp id :=
  (codes_varint safe.1).bind ((codes_varint safe.2).done rfl)

theorem yields_stamp : Yields decodeStamp SafeStamp :=
  yields_varint.bind fun _ c => yields_varint.bind fun _ r => yields_pure ⟨c, r⟩

theorem codes_optionalStamp {id : Option Identifier} (safe : ∀ i ∈ id, SafeStamp i) :
    Codes (encodeOptionalStamp id) (decodeOptionalStamp id.isSome) id := by
  cases id with
  | none => exact codes_pure none
  | some i => exact (codes_stamp (safe i rfl)).done rfl

theorem yields_optionalStamp (present : Bool) :
    Yields (decodeOptionalStamp present) fun id => ∀ i ∈ id, SafeStamp i := by
  refine Yields.ite (fun _ => ?_) fun _ => yields_pure nofun
  refine yields_stamp.bind fun i safe => yields_pure fun i' same => ?_
  obtain rfl := Option.some.inj same
  exact safe

theorem textDecode_textEncode (text : List Char) : textDecode (textEncode text) = some text := by
  show (ByteArray.utf8Decode? text.utf8Encode).map Array.toList = some text
  rw [List.utf8Decode?_utf8Encode]
  rfl

/-- Only the encoding of a text is decoded to it. -/
theorem textEncode_of_textDecode {utf8 : List UInt8} {text : List Char}
    (decoded : textDecode utf8 = some text) : textEncode text = utf8 := by
  obtain ⟨chars, found, rfl⟩ := Option.map_eq_some_iff.mp decoded
  have valid : (utf8.toByteArray.utf8Decode?).isSome = true := by
    rw [found]
    rfl
  have same := ByteArray.utf8Encode_get_utf8Decode? (b := utf8.toByteArray) (h := valid)
  simp only [found, Option.get_some] at same
  exact List.toByteArray_inj.mp same

theorem isHighSurrogate_toNat (c : Char) : isHighSurrogate c.toNat = false := by
  have valid : c.toNat.isValidChar := c.valid
  unfold Nat.isValidChar at valid
  simp only [isHighSurrogate, Bool.and_eq_false_iff, decide_eq_false_iff_not]
  omega

theorem scalarOrReplacement_toNat (c : Char) : scalarOrReplacement c.toNat = c := by
  have valid : c.toNat.isValidChar := c.valid
  rw [scalarOrReplacement, if_pos valid, Char.ofNat_toNat]

/-- Scalar values are neither joined nor replaced. -/
theorem scalars_map_toNat (text : List Char) : scalars (text.map Char.toNat) = text := by
  induction text with
  | nil => rfl
  | cons c text ih =>
      cases text with
      | nil => exact congrArg (· :: []) (scalarOrReplacement_toNat c)
      | cons d text =>
          rw [List.map_cons] at ih ⊢
          rw [List.map_cons, scalars, isHighSurrogate_toNat, Bool.false_and, if_neg (by decide), ih,
            scalarOrReplacement_toNat]

theorem fromCodePoint_map_toNat (text : List Char) :
    fromCodePoint (text.map Char.toNat) = .ok text := by
  have none : (text.map Char.toNat).find? (· > 0x10ffff) = none := by
    rw [List.find?_eq_none]
    intro v member
    obtain ⟨c, -, rfl⟩ := List.mem_map.mp member
    have valid : c.toNat.isValidChar := c.valid
    unfold Nat.isValidChar at valid
    simp only [gt_iff_lt, decide_eq_true_eq]
    omega
  rw [fromCodePoint, none, scalars_map_toNat]

/-- Scalar values are the code points of a text. -/
theorem exists_text {values : List Nat} (scalar : ∀ v ∈ values, v.isValidChar) :
    ∃ text : List Char, text.map Char.toNat = values := by
  refine ⟨values.map Char.ofNat, ?_⟩
  rw [List.map_map]
  refine (List.map_congr_left fun v member => ?_).trans (List.map_id values)
  show (Char.ofNat v).toNat = v
  rw [Char.ofNat, dif_pos (scalar v member)]
  rfl

theorem isValidChar_toNat (text : List Char) : ∀ v ∈ text.map Char.toNat, v.isValidChar := by
  intro v member
  obtain ⟨c, -, rfl⟩ := List.mem_map.mp member
  exact c.valid

/-! ### What a side can send -/

/-- The message can be written: its numbers are safe integers, so are the lengths of its lists and
texts, a run or batch has at least two members, and the values of a run are Unicode scalars. -/
def Sound : OpsMessage → Prop
  | .opInsert op => SafeStamp op.id ∧ (∀ p ∈ op.parent, SafeStamp p) ∧ op.value ≤ MAX_SAFE_INTEGER
  | .opInsertRun firstId firstParent _ _ values =>
      SafeStamp firstId ∧ (∀ p ∈ firstParent, SafeStamp p) ∧ 2 ≤ values.length ∧
        values.length ≤ MAX_SAFE_INTEGER ∧ (∀ v ∈ values, v.isValidChar) ∧
        (textEncode (scalars values)).length ≤ MAX_SAFE_INTEGER
  | .opDelete op => SafeStamp op.id ∧ SafeStamp op.target
  | .opDeleteBatch atFirst replica targets =>
      atFirst ≤ MAX_SAFE_INTEGER ∧ replica ≤ MAX_SAFE_INTEGER ∧ 2 ≤ targets.length ∧
        targets.length ≤ MAX_SAFE_INTEGER ∧ ∀ target ∈ targets, SafeStamp target
  | .opUndelete op => SafeStamp op.id ∧ SafeStamp op.target

/-- What a side can put into a frame: only the server assigns sequence numbers, acknowledges and
rejects. -/
def Sendable (direction : Direction) : WireMessage → Prop
  | .op seq msg => seq ≤ MAX_SAFE_INTEGER ∧ (direction = .clientOrigin → seq = 0) ∧ Sound msg
  | .opAck acks => direction = .serverOrigin ∧ acks.length ≤ MAX_SAFE_INTEGER ∧
      ∀ ack ∈ acks, ack.ackSeq ≤ MAX_SAFE_INTEGER ∧ SafeStamp ack.ackedId
  | .opReject rejects detail => direction = .serverOrigin ∧ rejects.length ≤ MAX_SAFE_INTEGER ∧
      (∀ reject ∈ rejects, SafeStamp reject.rejectedId) ∧
      (textEncode detail.toList).length ≤ MAX_SAFE_INTEGER

/-! ### The payloads -/

section Flags

variable (hasParent : Bool) (side : Side) (bind : Bool)

theorem insertFlags_small : insertFlags hasParent side bind < 256 := by
  cases hasParent <;> cases side <;> cases bind <;> decide

theorem insertFlags_known :
    insertFlags hasParent side bind &&& (0xff ^^^ INSERT_FLAGS_KNOWN_BITS) = 0 := by
  cases hasParent <;> cases side <;> cases bind <;> decide

theorem insertFlags_parent :
    decide (insertFlags hasParent side bind &&& FLAG_HAS_PARENT ≠ 0) = hasParent := by
  cases hasParent <;> cases side <;> cases bind <;> decide

theorem insertFlags_side :
    (if insertFlags hasParent side bind &&& FLAG_SIDE_R ≠ 0 then Side.R else Side.L) = side := by
  cases hasParent <;> cases side <;> cases bind <;> decide

theorem insertFlags_bind : decide (insertFlags hasParent side bind &&& FLAG_BIND ≠ 0) = bind := by
  cases hasParent <;> cases side <;> cases bind <;> decide

theorem checkNoReservedBits_insertFlags (reason message : String) :
    checkNoReservedBits (insertFlags hasParent side bind) INSERT_FLAGS_KNOWN_BITS reason message =
      pure () :=
  if_neg fun unknown => unknown (insertFlags_known hasParent side bind)

end Flags

theorem codes_seq {direction : Direction} {seq : Nat} (safe : seq ≤ MAX_SAFE_INTEGER)
    (assigned : direction = .clientOrigin → seq = 0) :
    Codes (writeVarint seq) (readAndCheckSeq direction) seq :=
  (codes_varint safe).done (if_neg fun wrong => wrong.2 (assigned wrong.1))

theorem yields_seq (direction : Direction) : Yields (readAndCheckSeq direction) fun seq =>
    seq ≤ MAX_SAFE_INTEGER ∧ (direction = .clientOrigin → seq = 0) := by
  refine yields_varint.bind fun seq safe => ?_
  refine Yields.ite (fun _ => yields_throw _) fun allowed => yields_pure ⟨safe, fun client => ?_⟩
  by_contra assigned
  exact allowed ⟨client, assigned⟩

section Payloads

variable {direction : Direction} {seq : Nat}

theorem codes_insert {op : InsertOperation} (sendable : Sendable direction (.op seq (.opInsert op))) :
    Codes (encodeOpInsertPayload seq op) (decodeOpInsertPayload direction)
      (.op seq (.opInsert op)) := by
  obtain ⟨safe, assigned, stamp, parent, value⟩ := sendable
  refine (codes_seq safe assigned).bind ?_
  refine (codes_byte (insertFlags_small op.parent.isSome op.side op.bind)).bind ?_
  simp only [checkNoReservedBits_insertFlags, pure_bind, insertFlags_parent, insertFlags_side,
    insertFlags_bind]
  exact (codes_stamp stamp).bind ((codes_optionalStamp parent).bind ((codes_varint value).done rfl))

theorem yields_insert : Yields (decodeOpInsertPayload direction) (Sendable direction) := by
  refine (yields_seq direction).bind fun seq ⟨safe, assigned⟩ => ?_
  refine yields_byte.bind fun flags _ => ?_
  refine (Yields.trivial _).bind fun _ _ => ?_
  refine yields_stamp.bind fun id stamp => ?_
  refine (yields_optionalStamp _).bind fun parent under => ?_
  exact yields_varint.bind fun value small => yields_pure ⟨safe, assigned, stamp, under, small⟩

theorem codes_insertRun {firstId : Identifier} {firstParent : Option Identifier} {firstSide : Side}
    {bind : Bool} {values : List Nat}
    (sendable : Sendable direction
      (.op seq (.opInsertRun firstId firstParent firstSide bind values))) :
    Codes (encodeOpInsertRunPayload seq firstId firstParent firstSide bind values)
      (decodeOpInsertRunPayload direction)
      (.op seq (.opInsertRun firstId firstParent firstSide bind values)) := by
  obtain ⟨safe, assigned, stamp, parent, long, fits, scalar, bytes⟩ := sendable
  obtain ⟨text, rfl⟩ := exists_text scalar
  rw [scalars_map_toNat] at bytes
  rw [encodeOpInsertRunPayload, if_neg (Nat.not_lt.mpr long)]
  refine (codes_seq safe assigned).bind ?_
  refine (codes_byte (insertFlags_small firstParent.isSome firstSide bind)).bind ?_
  simp only [checkNoReservedBits_insertFlags, pure_bind, insertFlags_parent, insertFlags_side,
    insertFlags_bind]
  refine (codes_stamp stamp).bind ((codes_optionalStamp parent).bind ?_)
  refine (codes_varint fits).bind ?_
  rw [if_neg (Nat.not_lt.mpr long), fromCodePoint_map_toNat]
  refine (codes_varint bytes).bind ((codes_bytes (textEncode text)).done ?_)
  simp only [textDecode_textEncode, ne_eq, not_true_eq_false, if_false]

theorem yields_insertRun : Yields (decodeOpInsertRunPayload direction) (Sendable direction) := by
  refine (yields_seq direction).bind fun seq ⟨safe, assigned⟩ => ?_
  refine yields_byte.bind fun flags _ => ?_
  refine (Yields.trivial _).bind fun _ _ => ?_
  refine yields_stamp.bind fun firstId stamp => ?_
  refine (yields_optionalStamp _).bind fun firstParent parent => ?_
  refine yields_varint.bind fun count fits => ?_
  refine Yields.ite (fun _ => yields_throw _) fun long => ?_
  refine yields_varint.bind fun byteLength small => ?_
  refine (yields_bytes byteLength).bind fun utf8 length => ?_
  cases decoded : textDecode utf8 with
  | none => exact yields_throw _
  | some text =>
      refine Yields.ite (fun _ => yields_throw _) fun counted => yields_pure ?_
      have same : (text.map Char.toNat).length = count := not_not.mp counted
      refine ⟨safe, assigned, stamp, parent, same ▸ Nat.le_of_not_lt long, same ▸ fits,
        isValidChar_toNat text, ?_⟩
      rw [scalars_map_toNat, textEncode_of_textDecode decoded, length]
      exact small

theorem codes_target {id target : Identifier} {msg : Identifier → Identifier → OpsMessage}
    (safe : seq ≤ MAX_SAFE_INTEGER) (assigned : direction = .clientOrigin → seq = 0)
    (stamp : SafeStamp id) (named : SafeStamp target) :
    Codes (encodeTargetPayload seq id target) (decodeTargetPayload direction msg)
      (.op seq (msg id target)) :=
  (codes_seq safe assigned).bind ((codes_stamp named).bind
    ((codes_varint stamp.1).bind ((codes_varint stamp.2).done rfl)))

theorem yields_target {msg : Identifier → Identifier → OpsMessage}
    (sound : ∀ id target, SafeStamp id → SafeStamp target → Sound (msg id target)) :
    Yields (decodeTargetPayload direction msg) (Sendable direction) := by
  refine (yields_seq direction).bind fun seq ⟨safe, assigned⟩ => ?_
  refine yields_stamp.bind fun target named => ?_
  refine yields_varint.bind fun c small => yields_varint.bind fun r small' => ?_
  exact yields_pure ⟨safe, assigned, sound ⟨c, r⟩ target ⟨small, small'⟩ named⟩

theorem codes_delete {op : DeleteOperation} (sendable : Sendable direction (.op seq (.opDelete op))) :
    Codes (encodeOpDeletePayload seq op) (decodeOpDeletePayload direction)
      (.op seq (.opDelete op)) := by
  obtain ⟨safe, assigned, stamp, named⟩ := sendable
  exact codes_target safe assigned stamp named

theorem codes_undelete {op : UndeleteOperation}
    (sendable : Sendable direction (.op seq (.opUndelete op))) :
    Codes (encodeOpUndeletePayload seq op) (decodeOpUndeletePayload direction)
      (.op seq (.opUndelete op)) := by
  obtain ⟨safe, assigned, stamp, named⟩ := sendable
  exact codes_target safe assigned stamp named

theorem yields_delete : Yields (decodeOpDeletePayload direction) (Sendable direction) :=
  yields_target fun _ _ stamp named => ⟨stamp, named⟩

theorem yields_undelete : Yields (decodeOpUndeletePayload direction) (Sendable direction) :=
  yields_target fun _ _ stamp named => ⟨stamp, named⟩

theorem codes_deleteBatch {atFirst replica : Nat} {targets : List Identifier}
    (sendable : Sendable direction (.op seq (.opDeleteBatch atFirst replica targets))) :
    Codes (encodeOpDeleteBatchPayload seq atFirst replica targets)
      (decodeOpDeleteBatchPayload direction) (.op seq (.opDeleteBatch atFirst replica targets)) := by
  obtain ⟨safe, assigned, first, minted, long, fits, stamps⟩ := sendable
  rw [encodeOpDeleteBatchPayload, if_neg (Nat.not_lt.mpr long)]
  refine (codes_seq safe assigned).bind ((codes_varint minted).bind ?_)
  refine (codes_varint first).bind ((codes_varint fits).bind ?_)
  rw [if_neg (Nat.not_lt.mpr long)]
  exact (Codes.each fun target member => codes_stamp (stamps target member)).done rfl

theorem yields_deleteBatch : Yields (decodeOpDeleteBatchPayload direction) (Sendable direction) := by
  refine (yields_seq direction).bind fun seq ⟨safe, assigned⟩ => ?_
  refine yields_varint.bind fun replica minted => yields_varint.bind fun atFirst first => ?_
  refine yields_varint.bind fun count fits => ?_
  refine Yields.ite (fun _ => yields_throw _) fun long => ?_
  refine (yields_stamp.each count).bind fun targets ⟨length, stamps⟩ => yields_pure ?_
  exact ⟨safe, assigned, first, minted, length ▸ Nat.le_of_not_lt long, length ▸ fits, stamps⟩

theorem codes_ack {acks : List AckEntry} (sendable : Sendable direction (.opAck acks)) :
    Codes (encodeOpAckPayload acks) decodeOpAckPayload (.opAck acks) := by
  obtain ⟨-, fits, entries⟩ := sendable
  refine (codes_varint fits).bind (Codes.done (Codes.each fun ack member => ?_) rfl)
  obtain ⟨seq, stamp⟩ := entries ack member
  exact (codes_varint seq).bind ((codes_stamp stamp).done rfl)

theorem yields_ack : Yields decodeOpAckPayload (Sendable .serverOrigin) := by
  have entry : Yields decodeAckEntry fun ack =>
      ack.ackSeq ≤ MAX_SAFE_INTEGER ∧ SafeStamp ack.ackedId :=
    yields_varint.bind fun _ seq => yields_stamp.bind fun _ stamp => yields_pure ⟨seq, stamp⟩
  refine yields_varint.bind fun count fits => (entry.each count).bind fun acks ⟨length, entries⟩ => ?_
  exact yields_pure ⟨rfl, length ▸ fits, entries⟩

theorem rejectReasonOf_code (reason : RejectReason) :
    rejectReasonOf (rejectReasonCode reason) = some reason := by cases reason <;> rfl

theorem codes_detail (detail : String) :
    Codes (if (textEncode detail.toList).length > 0 then writeBytes (textEncode detail.toList)
        else pure ())
      (decodeDetail (textEncode detail.toList).length) detail := by
  unfold decodeDetail
  by_cases some : (textEncode detail.toList).length > 0
  · rw [if_pos some, if_pos some]
    refine (codes_bytes _).done ?_
    simp only [textDecode_textEncode, String.ofList_toList]
  · rw [if_neg some, if_neg some]
    have nothing : textEncode detail.toList = [] := List.length_eq_zero_iff.mp (by omega)
    have decoded := textDecode_textEncode detail.toList
    rw [nothing] at decoded
    have empty : detail.toList = [] := Option.some.inj (decoded.symm.trans (textDecode_textEncode []))
    rw [String.toList_eq_nil_iff.mp empty]
    exact codes_pure ""

theorem codes_reject {rejects : List RejectEntry} {detail : String}
    (sendable : Sendable direction (.opReject rejects detail)) :
    Codes (encodeOpRejectPayload rejects detail) decodeOpRejectPayload
      (.opReject rejects detail) := by
  obtain ⟨-, fits, stamps, bytes⟩ := sendable
  refine (codes_varint fits).bind (Codes.bind (Codes.each fun reject member => ?_) ?_)
  · refine (codes_stamp (stamps reject member)).bind ?_
    refine (codes_byte (by cases reject.reason <;> decide)).done ?_
    simp only [rejectReasonOf_code]
  · exact (codes_varint bytes).bind ((codes_detail detail).done rfl)

theorem yields_detail (detailLength : Nat) : Yields (decodeDetail detailLength) fun detail =>
    (textEncode detail.toList).length = detailLength := by
  refine Yields.ite (fun _ => ?_) fun empty => yields_pure ?_
  · refine (yields_bytes detailLength).bind fun bytes length => ?_
    cases decoded : textDecode bytes with
    | none => exact yields_throw _
    | some detail =>
        refine yields_pure ?_
        rw [String.toList_ofList, textEncode_of_textDecode decoded, length]
  · show 0 = detailLength
    omega

theorem yields_reject : Yields decodeOpRejectPayload (Sendable .serverOrigin) := by
  have entry : Yields decodeRejectEntry fun reject => SafeStamp reject.rejectedId := by
    refine yields_stamp.bind fun id stamp => yields_byte.bind fun reason _ => ?_
    cases rejectReasonOf reason with
    | none => exact yields_throw _
    | some reason => exact yields_pure stamp
  refine yields_varint.bind fun count fits => (entry.each count).bind fun rejects ⟨length, stamps⟩ => ?_
  refine yields_varint.bind fun detailLength small => (yields_detail detailLength).bind fun _ same => ?_
  exact yields_pure ⟨rfl, length ▸ fits, stamps, same ▸ small⟩

end Payloads

/-! ### The frames -/

theorem codes_payload {direction : Direction} {msg : WireMessage} (sendable : Sendable direction msg) :
    Codes (encodePayload msg) (decodePayload direction (messageTypeOf msg)) msg := by
  cases msg with
  | opAck acks => exact codes_ack sendable
  | opReject rejects detail => exact codes_reject sendable
  | op seq msg =>
      cases msg with
      | opInsert op => exact codes_insert sendable
      | opInsertRun firstId firstParent firstSide bind values => exact codes_insertRun sendable
      | opDelete op => exact codes_delete sendable
      | opDeleteBatch atFirst replica targets => exact codes_deleteBatch sendable
      | opUndelete op => exact codes_undelete sendable

theorem yields_payload {direction : Direction} {messageType : Nat}
    (valid : ¬ (direction = .clientOrigin ∧ (messageType = OP_ACK ∨ messageType = OP_REJECT))) :
    Yields (decodePayload direction messageType) (Sendable direction) := by
  have server : messageType = OP_ACK ∨ messageType = OP_REJECT → direction = .serverOrigin := by
    intro answer
    cases direction with
    | clientOrigin => exact absurd ⟨rfl, answer⟩ valid
    | serverOrigin => rfl
  refine Yields.ite (fun _ => yields_insert) fun _ => ?_
  refine Yields.ite (fun _ => yields_insertRun) fun _ => ?_
  refine Yields.ite (fun _ => yields_delete) fun _ => ?_
  refine Yields.ite (fun _ => yields_deleteBatch) fun _ => ?_
  refine Yields.ite (fun _ => yields_undelete) fun _ => ?_
  refine Yields.ite (fun ack => ?_) fun _ => ?_
  · rw [server (Or.inl ack)]
    exact yields_ack
  · refine Yields.ite (fun reject => ?_) fun _ => yields_throw _
    rw [server (Or.inr reject)]
    exact yields_reject

theorem yields_readFrame (direction : Direction) :
    Yields (readFrame direction) (Sendable direction) := by
  refine (Yields.trivial _).bind fun version _ => Yields.ite (fun _ => yields_throw _) fun _ => ?_
  refine (Yields.trivial _).bind fun channel _ => Yields.ite (fun _ => yields_throw _) fun _ => ?_
  refine (Yields.trivial _).bind fun messageType _ => ?_
  exact Yields.ite (fun _ => yields_throw _) yields_payload

theorem messageType_valid {direction : Direction} {msg : WireMessage}
    (sendable : Sendable direction msg) :
    ¬ (direction = .clientOrigin ∧
      (messageTypeOf msg = OP_ACK ∨ messageTypeOf msg = OP_REJECT)) := by
  rintro ⟨rfl, answer⟩
  cases msg with
  | opAck acks => cases sendable.1
  | opReject rejects detail => cases sendable.1
  | op seq msg =>
      cases msg <;>
        simp [messageTypeOf, OP_INSERT, OP_INSERT_RUN, OP_DELETE, OP_DELETE_BATCH, OP_UNDELETE,
          OP_ACK, OP_REJECT] at answer

theorem messageType_small (msg : WireMessage) : messageTypeOf msg < 256 := by
  cases msg with
  | opAck acks => exact (by decide : OP_ACK < 256)
  | opReject rejects detail => exact (by decide : OP_REJECT < 256)
  | op seq msg =>
      cases msg <;>
        simp [messageTypeOf, OP_INSERT, OP_INSERT_RUN, OP_DELETE, OP_DELETE_BATCH, OP_UNDELETE]

/-- A message that a side can send is read back from its frame. -/
theorem decodeFrame_encodeFrame {direction : Direction} {msg : WireMessage}
    (sendable : Sendable direction msg) :
    ∃ bytes, encodeFrame msg = .ok bytes ∧ decodeFrame bytes direction = .ok msg := by
  obtain ⟨payload, writes, reads⟩ := codes_payload sendable
  have envelope : Codes (do
        writeByte PROTOCOL_VERSION
        writeByte OPS_CHANNEL
        writeByte (messageTypeOf msg)
        encodePayload msg) (readFrame direction) msg := by
    refine (codes_byte (by decide)).bind ?_
    rw [if_neg (by decide)]
    refine (codes_byte (by decide)).bind ?_
    rw [if_neg (by decide)]
    refine (codes_byte (messageType_small msg)).bind ?_
    rw [if_neg (messageType_valid sendable)]
    exact ⟨payload, writes, reads⟩
  obtain ⟨bytes, writes, reads⟩ := envelope
  refine ⟨bytes, ?_, ?_⟩
  · rw [encodeFrame, writes []]
    rfl
  · have all := reads []
    rw [List.append_nil] at all
    rw [decodeFrame, all]
    rfl

theorem sendable_of_decodeFrame {direction : Direction} {bytes : List UInt8} {msg : WireMessage}
    (decoded : decodeFrame bytes direction = .ok msg) : Sendable direction msg := by
  obtain ⟨⟨read, remaining⟩, ran, decoded⟩ := Throwing.ok_of_bind decoded
  simp only at decoded
  split_ifs at decoded
  obtain rfl := Except.ok.inj decoded
  exact yields_readFrame direction bytes read remaining ran

end Codec

open Codec

/-- A run of two scalars outside ASCII from the server. -/
def sampleRun : WireMessage :=
  .op (2 ^ 53 - 1) (.opInsertRun ⟨3, 2⟩ (some ⟨1, 1⟩) .L true [0x1f600, 0x301])

/-- A client's insert whose sequence number is not in its shortest form. -/
def sampleBytes : List UInt8 := [1, 1, 1, 0x80, 0, 2, 1, 1, 97]

end ConfluenceEditor
