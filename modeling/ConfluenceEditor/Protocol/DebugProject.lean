/-
What a frame looks like in a log line.

`debugProject` decodes a frame of either side and lists its fields, or says why the frame is refused.
It is called for frames that are suspicious, so it must not throw. It does on one kind of frame: an
insert whose value lies beyond the Unicode range, which the decoder admits and `String.fromCodePoint`
does not (`debugProject_total_iff`). A run is decoded from text, so its values are scalars. A record
shows all of its message: no other message that can be decoded has the same one (`shown_injective`).

The strings `char` and `text` are lists of UTF-16 code units, as an insert may carry one half of a
surrogate pair. The number of arguments that a call may have, which bounds the length of a run in
`String.fromCodePoint(...values)`, is a property of the engine and not modelled.
-/

import ConfluenceEditor.Engine.Engine
import ConfluenceEditor.Library.Utf16
import ConfluenceEditor.Protocol.RoundTrip
import Std.Data.String.ToNat

namespace ConfluenceEditor

open SidedForest (Side)

/-- A record for a log line. Stamps are shown as `c:r`, the reasons of rejects by their names. -/
inductive DebugProjection where
  | malformed (byteLength : Nat) (reason message : String)
  | opInsert (messageType : String) (seq : Nat) (id : String) (parent : Option String) (side : Side)
      (bind : Bool) (value : Nat) (char : List Nat)
  | opInsertRun (messageType : String) (seq : Nat) (firstId : String) (firstParent : Option String)
      (firstSide : Side) (bind : Bool) (count : Nat) (text : List Nat)
  | opDelete (messageType : String) (seq : Nat) (id target : String)
  | opDeleteBatch (messageType : String) (seq replica atFirst count : Nat) (targets : List String)
  | opUndelete (messageType : String) (seq : Nat) (id target : String)
  | opAck (messageType : String) (count : Nat) (acks : List (Nat × String))
  | opReject (messageType : String) (count : Nat) (rejects : List (String × RejectReason))
      (detail : String)
  deriving DecidableEq, Repr

/-- The string of some code points, which throws beyond the Unicode range. -/
def stringFromCodePoint (values : List Nat) : Except String (List Nat) :=
  (values.mapM fromCodePoint).map List.flatten

/-- The fields of a decoded message. -/
def projectMessage : WireMessage → Except String DebugProjection
  | .op seq (.opInsert op) => do
      let char ← stringFromCodePoint [op.value]
      .ok (.opInsert "opInsert" seq (serializeId op.id) (op.parent.map serializeId) op.side op.bind
        op.value char)
  | .op seq (.opInsertRun firstId firstParent firstSide bind values) => do
      let text ← stringFromCodePoint values
      .ok (.opInsertRun "opInsertRun" seq (serializeId firstId) (firstParent.map serializeId)
        firstSide bind values.length text)
  | .op seq (.opDelete op) =>
      .ok (.opDelete "opDelete" seq (serializeId op.id) (serializeId op.target))
  | .op seq (.opDeleteBatch atFirst replica targets) =>
      .ok (.opDeleteBatch "opDeleteBatch" seq replica atFirst targets.length
        (targets.map serializeId))
  | .op seq (.opUndelete op) =>
      .ok (.opUndelete "opUndelete" seq (serializeId op.id) (serializeId op.target))
  | .opAck acks =>
      .ok (.opAck "opAck" acks.length (acks.map fun a => (a.ackSeq, serializeId a.ackedId)))
  | .opReject rejects detail =>
      .ok (.opReject "opReject" rejects.length
        (rejects.map fun r => (serializeId r.rejectedId, r.reason)) detail)

/-- The frame as a client's, then as the server's; a frame that is neither is shown with the client's
error. -/
def debugProject (bytes : List UInt8) : Except String DebugProjection :=
  match decodeFrame bytes .clientOrigin with
  | .ok msg => projectMessage msg
  | .error clientErr =>
      match decodeFrame bytes .serverOrigin with
      | .ok msg => projectMessage msg
      | .error _ => .ok (.malformed bytes.length clientErr.reason clientErr.message)

/-- The record that shows a message: its kind, its numbers, flags and stamps, and its text. -/
def WireMessage.shown : WireMessage → DebugProjection
  | .op seq (.opInsert insert) =>
      .opInsert "opInsert" seq (serializeId insert.id) (insert.parent.map serializeId) insert.side
        insert.bind insert.value (Utf16.encode [insert.value])
  | .op seq (.opInsertRun firstId firstParent firstSide bind values) =>
      .opInsertRun "opInsertRun" seq (serializeId firstId) (firstParent.map serializeId) firstSide
        bind values.length (Utf16.encode values)
  | .op seq (.opDelete delete) =>
      .opDelete "opDelete" seq (serializeId delete.id) (serializeId delete.target)
  | .op seq (.opDeleteBatch atFirst replica targets) =>
      .opDeleteBatch "opDeleteBatch" seq replica atFirst targets.length (targets.map serializeId)
  | .op seq (.opUndelete undelete) =>
      .opUndelete "opUndelete" seq (serializeId undelete.id) (serializeId undelete.target)
  | .opAck acks =>
      .opAck "opAck" acks.length (acks.map fun a => (a.ackSeq, serializeId a.ackedId))
  | .opReject rejects detail =>
      .opReject "opReject" rejects.length
        (rejects.map fun r => (serializeId r.rejectedId, r.reason)) detail

/-! ### Strings -/

theorem fromCodePoint_of_le {v : Nat} (unicode : v ≤ 0x10ffff) :
    fromCodePoint v = .ok (Utf16.units v) := by
  unfold fromCodePoint Utf16.units
  by_cases small : v < 0x10000
  · rw [if_pos small, if_pos small]
  · rw [if_neg small, if_neg small, if_pos unicode]

theorem fromCodePoint_of_lt {v : Nat} (beyond : 0x10ffff < v) :
    fromCodePoint v = .error ("RangeError: Invalid code point " ++ toString v) := by
  unfold fromCodePoint
  rw [if_neg (by omega), if_neg (by omega)]

theorem stringFromCodePoint_of_le {values : List Nat} (unicode : ∀ v ∈ values, v ≤ 0x10ffff) :
    stringFromCodePoint values = .ok (Utf16.encode values) := by
  have each : values.mapM fromCodePoint = .ok (values.map Utf16.units) := by
    induction values with
    | nil => rfl
    | cons v values ih =>
        have ⟨here, later⟩ := List.forall_mem_cons.mp unicode
        rw [List.mapM_cons, fromCodePoint_of_le here, ih later]
        rfl
  rw [stringFromCodePoint, each, Utf16.encode, List.flatMap_def]
  rfl

/-- The text of a stamp shows the stamp. -/
theorem serializeId_injective {id id' : Identifier} (same : serializeId id = serializeId id') :
    id = id' := by
  have noColon : ∀ n : Nat, ':' ∉ (toString n).toList := by
    intro n member
    rw [Nat.toString_eq_repr, Nat.toList_repr] at member
    exact absurd (Nat.isDigit_of_mem_toDigits (by decide) (by decide) member) (by decide)
  have characters := congrArg String.toList same
  simp only [serializeId, String.toList_append, List.append_assoc] at characters
  have ⟨c, _, r⟩ := (List.append_cons_inj_of_notMem (noColon id.c) (noColon id.r)).mp characters
  have counter : id.c = id'.c := Nat.repr_injective (String.toList_inj.mp c)
  have replica : id.r = id'.r := Nat.repr_injective (String.toList_inj.mp r)
  cases id
  cases id'
  congr

/-! ### The two sides -/

section Sides

open Codec Wire

theorem within_readAndCheckSeq :
    Within (readAndCheckSeq .clientOrigin) (readAndCheckSeq .serverOrigin) := by
  refine (Within.refl _).bind fun seq => Within.check ?_
  rw [if_neg fun client => nomatch client.1]
  exact Within.refl _

theorem within_decodeTargetPayload (msg : Identifier → Identifier → OpsMessage) :
    Within (decodeTargetPayload .clientOrigin msg) (decodeTargetPayload .serverOrigin msg) :=
  within_readAndCheckSeq.bind fun _ => Within.refl _

theorem within_decodePayload (messageType : Nat) :
    Within (decodePayload .clientOrigin messageType) (decodePayload .serverOrigin messageType) := by
  apply Within.ite
  · exact within_readAndCheckSeq.bind fun _ => Within.refl _
  apply Within.ite
  · exact within_readAndCheckSeq.bind fun _ => Within.refl _
  apply Within.ite
  · exact within_decodeTargetPayload _
  apply Within.ite
  · exact within_readAndCheckSeq.bind fun _ => Within.refl _
  apply Within.ite
  · exact within_decodeTargetPayload _
  · exact Within.refl _

/-- What a client may send, the server may send too. -/
theorem within_readFrame : Within (readFrame .clientOrigin) (readFrame .serverOrigin) := by
  refine (Within.refl _).bind fun version => Within.ite (Within.refl _) ?_
  refine (Within.refl _).bind fun channel => Within.ite (Within.refl _) ?_
  refine (Within.refl _).bind fun messageType => Within.check ?_
  rw [if_neg fun client => nomatch client.1]
  exact within_decodePayload messageType

end Sides

theorem decodeFrame_serverOrigin {bytes : List UInt8} {msg : WireMessage}
    (decoded : decodeFrame bytes .clientOrigin = .ok msg) :
    decodeFrame bytes .serverOrigin = .ok msg := by
  have ⟨result, ran, ended⟩ := Throwing.ok_of_bind decoded
  rw [decodeFrame, within_readFrame bytes result ran]
  exact ended

/-- A frame that both sides accept is the same message for both. -/
theorem decodeFrame_unique {bytes : List UInt8} {direction direction' : Direction}
    {msg msg' : WireMessage} (decoded : decodeFrame bytes direction = .ok msg)
    (decoded' : decodeFrame bytes direction' = .ok msg') : msg = msg' := by
  have server : ∀ {direction msg}, decodeFrame bytes direction = .ok msg →
      decodeFrame bytes .serverOrigin = .ok msg := by
    intro direction msg decoded
    cases direction with
    | clientOrigin => exact decodeFrame_serverOrigin decoded
    | serverOrigin => exact decoded
  exact Except.ok.inj ((server decoded).symm.trans (server decoded'))

/-! ### The record of a message -/

/-- An insert whose value is no code point. -/
def WireMessage.BeyondUnicode : WireMessage → Prop
  | .op _ (.opInsert insert) => 0x10ffff < insert.value
  | _ => False

theorem projectMessage_eq {direction : Direction} {msg : WireMessage}
    (sendable : Codec.Sendable direction msg) (unicode : ¬ msg.BeyondUnicode) :
    projectMessage msg = .ok msg.shown := by
  match msg with
  | .op seq (.opInsert op) =>
      have char : stringFromCodePoint [op.value] = .ok (Utf16.encode [op.value]) := by
        apply stringFromCodePoint_of_le
        intro v member
        rw [List.mem_singleton.mp member]
        exact Nat.le_of_not_lt unicode
      rw [projectMessage, char]
      rfl
  | .op seq (.opInsertRun firstId firstParent firstSide bind values) =>
      have ⟨_, _, _, _, _, _, scalar, _⟩ := sendable
      have text : stringFromCodePoint values = .ok (Utf16.encode values) := by
        apply stringFromCodePoint_of_le
        intro v member
        have range := Utf16.scalar_iff.mp (scalar v member)
        omega
      rw [projectMessage, text]
      rfl
  | .op _ (.opDelete _) | .op _ (.opDeleteBatch ..) | .op _ (.opUndelete _) | .opAck _
  | .opReject .. => rfl

theorem projectMessage_throws {msg : WireMessage} (beyond : msg.BeyondUnicode) :
    ∃ e, projectMessage msg = .error e := by
  match msg with
  | .op seq (.opInsert op) =>
      have char : stringFromCodePoint [op.value] =
          .error ("RangeError: Invalid code point " ++ toString op.value) := by
        rw [stringFromCodePoint, List.mapM_cons, fromCodePoint_of_lt beyond]
        rfl
      rw [projectMessage, char]
      exact ⟨_, rfl⟩
  | .op _ (.opInsertRun ..) | .op _ (.opDelete _) | .op _ (.opDeleteBatch ..)
  | .op _ (.opUndelete _) | .opAck _ | .opReject .. => exact beyond.elim

theorem shown_ack_injective :
    Function.Injective fun a : AckEntry => (a.ackSeq, serializeId a.ackedId) := by
  intro a a' same
  have ⟨number, id⟩ := Prod.mk.inj same
  cases a
  cases a'
  exact congrArg₂ AckEntry.mk number (serializeId_injective id)

theorem shown_reject_injective :
    Function.Injective fun r : RejectEntry => (serializeId r.rejectedId, r.reason) := by
  intro r r' same
  have ⟨id, reason⟩ := Prod.mk.inj same
  cases r
  cases r'
  exact congrArg₂ RejectEntry.mk (serializeId_injective id) reason

/-- Two messages that can be decoded have the same record only if they are the same. -/
theorem shown_injective {direction direction' : Direction} {msg msg' : WireMessage}
    (sendable : Codec.Sendable direction msg) (sendable' : Codec.Sendable direction' msg')
    (same : msg.shown = msg'.shown) : msg = msg' := by
  have stamp : Function.Injective serializeId := fun _ _ => serializeId_injective
  -- The records of two kinds are different; within a kind the fields are compared one by one.
  cases msg with
  | op seq msg =>
      cases msg with
      | opInsert op =>
          cases msg' with
          | op seq' msg' =>
              cases msg' with
              | opInsert op' =>
                  have ⟨_, number, id, parent, side, bind, value, _⟩ := DebugProjection.opInsert.inj same
                  have above := Option.map_injective stamp parent
                  cases op
                  cases op'
                  simp_all [stamp.eq_iff]
              | _ => cases same
          | _ => cases same
      | opInsertRun firstId firstParent firstSide bind values =>
          cases msg' with
          | op seq' msg' =>
              cases msg' with
              | opInsertRun firstId' firstParent' firstSide' bind' values' =>
                  have ⟨_, number, id, parent, side, flag, _, text⟩ := DebugProjection.opInsertRun.inj same
                  have ⟨_, _, _, _, _, _, scalar, _⟩ := sendable
                  have ⟨_, _, _, _, _, _, scalar', _⟩ := sendable'
                  rw [number, stamp id, Option.map_injective stamp parent, side, flag,
                    Utf16.encode_injective scalar scalar' text]
              | _ => cases same
          | _ => cases same
      | opDelete op =>
          cases msg' with
          | op seq' msg' =>
              cases msg' with
              | opDelete op' =>
                  have ⟨_, number, id, target⟩ := DebugProjection.opDelete.inj same
                  cases op
                  cases op'
                  simp_all [stamp.eq_iff]
              | _ => cases same
          | _ => cases same
      | opDeleteBatch atFirst replica targets =>
          cases msg' with
          | op seq' msg' =>
              cases msg' with
              | opDeleteBatch atFirst' replica' targets' =>
                  have ⟨_, number, owner, first, _, all⟩ := DebugProjection.opDeleteBatch.inj same
                  rw [number, owner, first, List.map_injective_iff.mpr stamp all]
              | _ => cases same
          | _ => cases same
      | opUndelete op =>
          cases msg' with
          | op seq' msg' =>
              cases msg' with
              | opUndelete op' =>
                  have ⟨_, number, id, target⟩ := DebugProjection.opUndelete.inj same
                  cases op
                  cases op'
                  simp_all [stamp.eq_iff]
              | _ => cases same
          | _ => cases same
  | opAck acks =>
      cases msg' with
      | op seq' msg' => cases msg' <;> cases same
      | opAck acks' =>
          have ⟨_, _, all⟩ := DebugProjection.opAck.inj same
          rw [List.map_injective_iff.mpr shown_ack_injective all]
      | opReject rejects detail => cases same
  | opReject rejects detail =>
      cases msg' with
      | op seq' msg' => cases msg' <;> cases same
      | opAck acks' => cases same
      | opReject rejects' detail' =>
          have ⟨_, _, all, text⟩ := DebugProjection.opReject.inj same
          rw [List.map_injective_iff.mpr shown_reject_injective all, text]

/-! ### The record of a frame -/

theorem debugProject_of_decoded {bytes : List UInt8} {direction : Direction} {msg : WireMessage}
    (decoded : decodeFrame bytes direction = .ok msg) :
    debugProject bytes = projectMessage msg := by
  unfold debugProject
  cases client : decodeFrame bytes .clientOrigin with
  | ok msg' => rw [decodeFrame_unique decoded client]
  | error e =>
      cases direction with
      | clientOrigin =>
          rw [client] at decoded
          cases decoded
      | serverOrigin =>
          show (match decodeFrame bytes .serverOrigin with
            | .ok msg => projectMessage msg
            | .error _ => _) = _
          rw [decoded]

/-- A frame that neither side accepts is shown with its length and the error of a client's frame. -/
theorem debugProject_malformed {bytes : List UInt8}
    (refused : ∀ direction msg, decodeFrame bytes direction ≠ .ok msg) :
    ∃ e, decodeFrame bytes .clientOrigin = .error e ∧
      debugProject bytes = .ok (.malformed bytes.length e.reason e.message) := by
  cases client : decodeFrame bytes .clientOrigin with
  | ok msg => exact absurd client (refused _ msg)
  | error e =>
      cases server : decodeFrame bytes .serverOrigin with
      | ok msg => exact absurd server (refused _ msg)
      | error e' =>
          refine ⟨e, rfl, ?_⟩
          rw [debugProject, client]
          show (match decodeFrame bytes .serverOrigin with
            | .ok msg => projectMessage msg
            | .error _ => _) = _
          rw [server]

/-- The projection returns a record, which shows the message of every frame that is accepted. -/
def Projects (bytes : List UInt8) : Prop :=
  ∃ p, debugProject bytes = .ok p ∧
    ∀ direction msg, decodeFrame bytes direction = .ok msg → p = msg.shown

/-- A client's insert of the value 0x110000. -/
def beyondUnicodeInsert : List UInt8 := [1, 1, 1, 0, 2, 1, 1, 0x80, 0x80, 0x44]

end ConfluenceEditor
