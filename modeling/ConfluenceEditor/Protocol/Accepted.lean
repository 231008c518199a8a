/-
What the server makes of a client's frames.

A message can be encoded when its numbers are safe integers and the values of a run are code points;
a run may then hold a surrogate, as the values come from a string, which may have unpaired ones. The
text of a run is written as UTF-8, where a surrogate becomes U+FFFD and two that form a pair become
one scalar. So the server reads a run with other values, or refuses it because the count is wrong
(`accepted_iff`). Operations that are sent in messages arrive as they are exactly when all messages are
sound (`arrives_iff`).
-/

import ConfluenceEditor.Library.Throwing
import ConfluenceEditor.Protocol.RoundTrip
import Mathlib.Data.List.Flatten

namespace ConfluenceEditor

open Codec Wire

open SidedForest (Side)

/-- The frame of a client's message can be encoded, and the server decodes it to `received`. -/
def Accepted (msg received : OpsMessage) : Prop :=
  ∃ bytes, encodeFrame (.op 0 msg) = .ok bytes ∧
    decodeFrame bytes .clientOrigin = .ok (.op 0 received)

/-- The server accepts the frame of every message, and the frames expand to these operations. -/
def Arrives (msgs : List OpsMessage) (ops : List Operation) : Prop :=
  ∃ received, List.Forall₂ Accepted msgs received ∧ received.flatMap toOperations = ops

namespace Codec

/-- The message can be written. -/
def Encodable : OpsMessage → Prop
  | .opInsertRun firstId firstParent _ _ values =>
      SafeStamp firstId ∧ (∀ p ∈ firstParent, SafeStamp p) ∧ 2 ≤ values.length ∧
        values.length ≤ MAX_SAFE_INTEGER ∧ (∀ v ∈ values, v ≤ 0x10ffff) ∧
        (textEncode (scalars values)).length ≤ MAX_SAFE_INTEGER
  | msg => Sound msg

/-- The text of a run has as many scalars as the run has values. -/
def Counted : OpsMessage → Prop
  | .opInsertRun _ _ _ _ values => (scalars values).length = values.length
  | _ => True

/-- The message with the text that is written for it. -/
def rewritten : OpsMessage → OpsMessage
  | .opInsertRun firstId firstParent firstSide bind values =>
      .opInsertRun firstId firstParent firstSide bind ((scalars values).map Char.toNat)
  | msg => msg

/-! ### What encoding requires -/

theorem requires_varint (v : Nat) : Requires (writeVarint v) (v ≤ MAX_SAFE_INTEGER) :=
  Requires.check fun small => requires_true (Nat.le_of_not_lt small)

theorem requires_stamp (id : Identifier) : Requires (encodeStamp id) (SafeStamp id) :=
  (requires_varint id.c).first.and (Requires.later fun _ => requires_varint id.r)

theorem requires_optionalStamp (id : Option Identifier) :
    Requires (encodeOptionalStamp id) (∀ p ∈ id, SafeStamp p) := by
  cases id with
  | none => exact requires_true nofun
  | some id =>
      intro before result ran p same
      cases same
      exact requires_stamp id before result ran

theorem requires_fromCodePoint {β : Type} (values : List Nat) (f : List Char → ByteWriter β)
    {P : Prop} (rest : (∀ v ∈ values, v ≤ 0x10ffff) → Requires (f (scalars values)) P) :
    Requires ((do let text ← (fromCodePoint values : Except String (List Char)); f text) :
      ByteWriter β) P := by
  cases beyond : values.find? (· > 0x10ffff) with
  | some v =>
      rw [fromCodePoint, beyond]
      intro before result ran
      cases ran
  | none =>
      rw [fromCodePoint, beyond]
      refine rest fun v member => ?_
      have inside := List.find?_eq_none.mp beyond v member
      simpa using inside

theorem requires_target (seq : Nat) (id target : Identifier) :
    Requires (encodeTargetPayload seq id target) (SafeStamp id ∧ SafeStamp target) := by
  refine Requires.later fun _ => ?_
  have stamps : Requires (do writeVarint id.c; writeVarint id.r) (SafeStamp id) := requires_stamp id
  exact (Requires.later fun _ => stamps).and (requires_stamp target).first

theorem requires_payload (seq : Nat) (msg : OpsMessage) :
    Requires (encodePayload (.op seq msg)) (Encodable msg) := by
  cases msg with
  | opInsert op =>
      refine Requires.later fun _ => Requires.later fun _ => ?_
      refine (requires_stamp op.id).first.and (Requires.later fun _ => ?_)
      exact (requires_optionalStamp op.parent).first.and
        (Requires.later fun _ => requires_varint op.value)
  | opInsertRun firstId firstParent firstSide bind values =>
      refine Requires.check fun long => ?_
      refine Requires.later fun _ => Requires.later fun _ => ?_
      refine (requires_stamp firstId).first.and (Requires.later fun _ => ?_)
      refine (requires_optionalStamp firstParent).first.and (Requires.later fun _ => ?_)
      refine (requires_true (Nat.le_of_not_lt long)).and ?_
      refine (requires_varint values.length).first.and (Requires.later fun _ => ?_)
      refine requires_fromCodePoint values _ fun unicode => ?_
      exact (requires_true unicode).and (requires_varint _).first
  | opDelete op => exact requires_target seq op.id op.target
  | opDeleteBatch atFirst replica targets =>
      refine Requires.check fun long => Requires.later fun _ => ?_
      have fits := (requires_varint targets.length).first
        (f := fun _ => writeEach encodeStamp targets)
      have stamps := Requires.later (w := writeVarint targets.length) fun _ =>
        Requires.each requires_stamp targets
      have first := (requires_varint atFirst).first
        (f := fun _ => do writeVarint targets.length; writeEach encodeStamp targets)
      have owner := (requires_varint replica).first (f := fun _ => do
        writeVarint atFirst
        writeVarint targets.length
        writeEach encodeStamp targets)
      refine (Requires.later fun _ => first).and (owner.and ?_)
      refine (requires_true (Nat.le_of_not_lt long)).and ?_
      exact Requires.later fun _ => Requires.later fun _ => fits.and stamps
  | opUndelete op => exact requires_target seq op.id op.target

theorem encodable_of_encodeFrame {seq : Nat} {msg : OpsMessage} {bytes : List UInt8}
    (encoded : encodeFrame (.op seq msg) = .ok bytes) : Encodable msg := by
  have ⟨result, ran, _⟩ := Throwing.ok_of_bind encoded
  have requires : Requires (do
      writeByte PROTOCOL_VERSION
      writeByte OPS_CHANNEL
      writeByte (messageTypeOf (.op seq msg))
      encodePayload (.op seq msg)) (Encodable msg) :=
    Requires.later fun _ => Requires.later fun _ => Requires.later fun _ => requires_payload seq msg
  exact requires [] result ran

/-! ### What the server reads -/

theorem sound_of_scalar {firstId : Identifier} {firstParent : Option Identifier} {firstSide : Side}
    {bind : Bool} {values : List Nat}
    (encodable : Encodable (.opInsertRun firstId firstParent firstSide bind values))
    (scalar : ∀ v ∈ values, v.isValidChar) :
    Sound (.opInsertRun firstId firstParent firstSide bind values) := by
  have ⟨stamp, parent, long, fits, _, bytes⟩ := encodable
  exact ⟨stamp, parent, long, fits, scalar, bytes⟩

theorem Sound.encodable {msg : OpsMessage} (sound : Sound msg) : Encodable msg := by
  cases msg with
  | opInsertRun firstId firstParent firstSide bind values =>
      have ⟨stamp, parent, long, fits, scalar, bytes⟩ := sound
      refine ⟨stamp, parent, long, fits, fun v member => ?_, bytes⟩
      have range : v < 0xd800 ∨ 0xdfff < v ∧ v < 0x110000 := scalar v member
      omega
  | opInsert op => exact sound
  | opDelete op => exact sound
  | opDeleteBatch atFirst replica targets => exact sound
  | opUndelete op => exact sound

theorem sound_rewritten {msg : OpsMessage} (encodable : Encodable msg) (counted : Counted msg) :
    Sound (rewritten msg) := by
  cases msg with
  | opInsertRun firstId firstParent firstSide bind values =>
      have ⟨stamp, parent, long, fits, _, bytes⟩ := encodable
      have same : ((scalars values).map Char.toNat).length = values.length := by
        rw [List.length_map, counted]
      refine ⟨stamp, parent, same ▸ long, same ▸ fits, isValidChar_toNat _, ?_⟩
      rw [scalars_map_toNat]
      exact bytes
  | opInsert op => exact encodable
  | opDelete op => exact encodable
  | opDeleteBatch atFirst replica targets => exact encodable
  | opUndelete op => exact encodable

theorem fromCodePoint_of_le {values : List Nat} (unicode : ∀ v ∈ values, v ≤ 0x10ffff) :
    fromCodePoint values = .ok (scalars values) := by
  have none : values.find? (· > 0x10ffff) = none := by
    rw [List.find?_eq_none]
    intro v member
    simpa using unicode v member
  rw [fromCodePoint, none]

/-- A message and the rewritten one have the same frame. -/
theorem encodeFrame_rewritten (seq : Nat) {msg : OpsMessage} (encodable : Encodable msg)
    (counted : Counted msg) : encodeFrame (.op seq (rewritten msg)) = encodeFrame (.op seq msg) := by
  cases msg with
  | opInsertRun firstId firstParent firstSide bind values =>
      have ⟨_, _, _, _, unicode, _⟩ := encodable
      have same : encodePayload (.op seq (rewritten
            (.opInsertRun firstId firstParent firstSide bind values))) =
          encodePayload (.op seq (.opInsertRun firstId firstParent firstSide bind values)) := by
        have length : ((scalars values).map Char.toNat).length = values.length := by
          rw [List.length_map, counted]
        show encodeOpInsertRunPayload seq firstId firstParent firstSide bind
            ((scalars values).map Char.toNat) =
          encodeOpInsertRunPayload seq firstId firstParent firstSide bind values
        rw [encodeOpInsertRunPayload, encodeOpInsertRunPayload, length, fromCodePoint_map_toNat,
          fromCodePoint_of_le unicode]
      rw [encodeFrame, encodeFrame, same]
      rfl
  | opInsert op => rfl
  | opDelete op => rfl
  | opDeleteBatch atFirst replica targets => rfl
  | opUndelete op => rfl

/-- A run whose text has another number of scalars is refused. -/
theorem refuses_run {firstId : Identifier} {firstParent : Option Identifier} {firstSide : Side}
    {bind : Bool} {values : List Nat}
    (encodable : Encodable (.opInsertRun firstId firstParent firstSide bind values))
    (miscounted : (scalars values).length ≠ values.length) :
    Refuses (encodeOpInsertRunPayload 0 firstId firstParent firstSide bind values)
      (decodeOpInsertRunPayload .clientOrigin) := by
  have ⟨stamp, parent, long, fits, unicode, bytes⟩ := encodable
  rw [encodeOpInsertRunPayload, if_neg (Nat.not_lt.mpr long)]
  refine (codes_seq (Nat.zero_le _) fun _ => rfl).refuses ?_
  refine (codes_byte (insertFlags_small firstParent.isSome firstSide bind)).refuses ?_
  simp only [checkNoReservedBits_insertFlags, pure_bind, insertFlags_parent, insertFlags_side,
    insertFlags_bind]
  refine (codes_stamp stamp).refuses ((codes_optionalStamp parent).refuses ?_)
  refine (codes_varint fits).refuses ?_
  rw [if_neg (Nat.not_lt.mpr long), fromCodePoint_of_le unicode]
  refine (codes_varint bytes).refuses ((codes_bytes (textEncode (scalars values))).refused ?_)
  simp only [textDecode_textEncode]
  rw [if_pos (by rwa [List.length_map])]
  exact ⟨_, rfl⟩

/-- A payload that is refused makes a frame that is refused. -/
theorem refused_of_payload {msg : OpsMessage}
    (refuses : Refuses (encodePayload (.op 0 msg))
      (decodePayload .clientOrigin (messageTypeOf (.op 0 msg)))) {bytes : List UInt8}
    (encoded : encodeFrame (.op 0 msg) = .ok bytes) :
    ∃ e, decodeFrame bytes .clientOrigin = .error e := by
  have client : ¬ (messageTypeOf (.op 0 msg) = OP_ACK ∨ messageTypeOf (.op 0 msg) = OP_REJECT) := by
    cases msg <;>
      simp [messageTypeOf, OP_INSERT, OP_INSERT_RUN, OP_DELETE, OP_DELETE_BATCH, OP_UNDELETE,
        OP_ACK, OP_REJECT]
  have envelope : Refuses (do
        writeByte PROTOCOL_VERSION
        writeByte OPS_CHANNEL
        writeByte (messageTypeOf (.op 0 msg))
        encodePayload (.op 0 msg)) (readFrame .clientOrigin) := by
    refine (codes_byte (by decide)).refuses ?_
    rw [if_neg (by decide)]
    refine (codes_byte (by decide)).refuses ?_
    rw [if_neg (by decide)]
    refine (codes_byte (messageType_small (.op 0 msg))).refuses ?_
    rw [if_neg fun answer => client answer.2]
    exact refuses
  obtain ⟨all, writes, refused⟩ := envelope
  have same : bytes = all := by
    rw [encodeFrame, writes []] at encoded
    exact (Except.ok.inj encoded).symm
  obtain ⟨e, failed⟩ := refused []
  rw [List.append_nil] at failed
  refine ⟨e, ?_⟩
  rw [same, decodeFrame, failed]
  rfl

end Codec

/-- **A frame on its way.** A message arrives as it was rewritten, if it can be encoded and its text
has the right number of scalars. -/
theorem accepted_iff {msg received : OpsMessage} : Accepted msg received ↔
    Encodable msg ∧ Counted msg ∧ received = rewritten msg := by
  constructor
  · rintro ⟨bytes, encoded, decoded⟩
    have encodable := encodable_of_encodeFrame encoded
    have counted : Counted msg := by
      cases msg with
      | opInsertRun firstId firstParent firstSide bind values =>
          by_contra miscounted
          have refuses : Refuses
              (encodePayload (.op 0 (.opInsertRun firstId firstParent firstSide bind values)))
              (decodePayload .clientOrigin OP_INSERT_RUN) := refuses_run encodable miscounted
          have ⟨e, refused⟩ := refused_of_payload refuses encoded
          rw [decoded] at refused
          cases refused
      | opInsert op => trivial
      | opDelete op => trivial
      | opDeleteBatch atFirst replica targets => trivial
      | opUndelete op => trivial
    refine ⟨encodable, counted, ?_⟩
    have sendable : Sendable .clientOrigin (.op 0 (rewritten msg)) :=
      ⟨Nat.zero_le _, fun _ => rfl, sound_rewritten encodable counted⟩
    have ⟨bytes', encoded', decoded'⟩ := decodeFrame_encodeFrame sendable
    rw [encodeFrame_rewritten 0 encodable counted, encoded] at encoded'
    cases encoded'
    rw [decoded] at decoded'
    cases decoded'
    rfl
  · rintro ⟨encodable, counted, rfl⟩
    have sendable : Sendable .clientOrigin (.op 0 (rewritten msg)) :=
      ⟨Nat.zero_le _, fun _ => rfl, sound_rewritten encodable counted⟩
    have ⟨bytes, encoded, decoded⟩ := decodeFrame_encodeFrame sendable
    rw [encodeFrame_rewritten 0 encodable counted] at encoded
    exact ⟨bytes, encoded, decoded⟩

/-! ### Lists of messages -/

@[simp] theorem values_expandInsertRun (firstId : Identifier) (firstParent : Option Identifier)
    (firstSide : Side) (bind : Bool) (values : List Nat) :
    (expandInsertRun firstId firstParent firstSide bind values).map InsertOperation.value =
      values := by
  induction values generalizing firstId firstParent firstSide with
  | nil => rfl
  | cons value values ih => exact congrArg (value :: ·) (ih ..)

@[simp] theorem length_expandInsertRun (firstId : Identifier) (firstParent : Option Identifier)
    (firstSide : Side) (bind : Bool) (values : List Nat) :
    (expandInsertRun firstId firstParent firstSide bind values).length = values.length := by
  have counted := congrArg List.length
    (values_expandInsertRun firstId firstParent firstSide bind values)
  rwa [List.length_map] at counted

theorem length_toOperations_rewritten {msg : OpsMessage} (counted : Counted msg) :
    (toOperations (rewritten msg)).length = (toOperations msg).length := by
  cases msg with
  | opInsertRun firstId firstParent firstSide bind values =>
      simp only [rewritten, toOperations, List.length_map, length_expandInsertRun]
      exact counted
  | opInsert op => rfl
  | opDelete op => rfl
  | opDeleteBatch atFirst replica targets => rfl
  | opUndelete op => rfl

/-- A message that is rewritten to the same operations has no surrogate. -/
theorem sound_of_rewritten {msg : OpsMessage} (encodable : Encodable msg)
    (same : toOperations (rewritten msg) = toOperations msg) : Sound msg := by
  cases msg with
  | opInsertRun firstId firstParent firstSide bind values =>
      have inserts := List.map_injective_iff.mpr (fun _ _ => Operation.insert.inj) same
      have kept := congrArg (List.map InsertOperation.value) inserts
      rw [values_expandInsertRun, values_expandInsertRun] at kept
      exact sound_of_scalar encodable (kept ▸ isValidChar_toNat _)
  | opInsert op => exact encodable
  | opDelete op => exact encodable
  | opDeleteBatch atFirst replica targets => exact encodable
  | opUndelete op => exact encodable

theorem rewritten_of_sound {msg : OpsMessage} (sound : Sound msg) :
    Counted msg ∧ rewritten msg = msg := by
  cases msg with
  | opInsertRun firstId firstParent firstSide bind values =>
      have ⟨_, _, _, _, scalar, _⟩ := sound
      have ⟨text, spelled⟩ := exists_text scalar
      rw [← spelled]
      refine ⟨?_, ?_⟩
      · show (scalars (text.map Char.toNat)).length = _
        rw [scalars_map_toNat, List.length_map]
      · rw [rewritten, scalars_map_toNat]
  | opInsert op => exact ⟨trivial, rfl⟩
  | opDelete op => exact ⟨trivial, rfl⟩
  | opDeleteBatch atFirst replica targets => exact ⟨trivial, rfl⟩
  | opUndelete op => exact ⟨trivial, rfl⟩

/-- **Arrival.** The operations of some messages arrive exactly when every message is sound. -/
theorem arrives_iff (msgs : List OpsMessage) :
    Arrives msgs (msgs.flatMap toOperations) ↔ ∀ msg ∈ msgs, Sound msg := by
  constructor
  · rintro ⟨received, accepted, arrived⟩
    have rewritten_all : received = msgs.map rewritten ∧
        ∀ msg ∈ msgs, Encodable msg ∧ Counted msg := by
      clear arrived
      induction accepted with
      | nil => exact ⟨rfl, nofun⟩
      | cons here _ ih =>
          have ⟨encodable, counted, same⟩ := accepted_iff.mp here
          exact ⟨congrArg₂ List.cons same ih.1, List.forall_mem_cons.mpr ⟨⟨encodable, counted⟩, ih.2⟩⟩
    have ⟨same, each⟩ := rewritten_all
    -- Frames of the same lengths with the same operations are the same, one by one.
    have pieces : msgs.map (fun msg => toOperations (rewritten msg)) = msgs.map toOperations := by
      apply List.eq_iff_flatten_eq.mpr
      refine ⟨?_, ?_⟩
      · rw [same, List.flatMap_map, List.flatMap_def, List.flatMap_def] at arrived
        exact arrived
      · rw [List.map_map, List.map_map]
        apply List.map_congr_left
        intro msg member
        exact length_toOperations_rewritten (each msg member).2
    intro msg member
    exact sound_of_rewritten (each msg member).1 (List.map_inj_left.mp pieces msg member)
  · intro sound
    refine ⟨msgs, ?_, rfl⟩
    apply List.forall₂_same.mpr
    intro msg member
    have ⟨counted, same⟩ := rewritten_of_sound (sound msg member)
    exact accepted_iff.mpr ⟨(sound msg member).encodable, counted, same.symm⟩

end ConfluenceEditor
