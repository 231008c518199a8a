/-
Malformed input.

A decoder is meant to fail in one way, with a `ProtocolDecodeError`, and to return a message only when
it consumed the whole input. The decoder of a chunk throws a plain `Error` when an embedded frame is
well formed but holds a run or a batch; `rejects_iff` says that this is the only exception.
-/

import ConfluenceEditor.Protocol.PresenceCodec
import ConfluenceEditor.Protocol.SnapshotBody

namespace ConfluenceEditor

open Wire

namespace Codec

/-- The four decoders return a message for the whole input, or throw a `ProtocolDecodeError`. -/
structure RejectsProperly (bytes : List UInt8) (direction : Direction) : Prop where
  ops : (∃ msg, (readFrame direction).run bytes = .ok (msg, []) ∧
      decodeFrame bytes direction = .ok msg) ∨
    ∃ e, decodeFrame bytes direction = .error e
  control : (∃ msg, (readControlFrame direction).run bytes = .ok (msg, []) ∧
      decodeControlFrame bytes direction = .ok msg) ∨
    ∃ e, decodeControlFrame bytes direction = .error (.protocolDecodeError e)
  presence : (∃ msg, (readPresenceFrame direction).run bytes = .ok (msg, []) ∧
      decodePresenceFrame bytes direction = .ok msg) ∨
    ∃ e, decodePresenceFrame bytes direction = .error e
  body : (∃ blocks, readStructureBlocks.run bytes = .ok (blocks, []) ∧
      decodeStructureSnapshotBody bytes = .ok blocks.flatten) ∨
    ∃ e, decodeStructureSnapshotBody bytes = .error e

/-! ### The exception -/

/-- The bytes of an embedded frame. -/
def readEntry : ByteReader (List UInt8) := do
  let frameLength ← readVarint
  readBytes frameLength

/-- The numbers in front of the entries of a chunk. -/
def readChunkHeader : ByteReader (Nat × Nat) := do
  let throughSeq ← readVarint
  let count ← readVarint
  pure (throughSeq, count)

/-- Behind entries with one operation each comes a frame that is accepted and holds more. -/
def EmbedsMore : Nat → List UInt8 → Prop
  | 0, _ => False
  | count + 1, s => ∃ frame rest msg, readEntry.run s = .ok (frame, rest) ∧
      decodeFrame frame .clientOrigin = .ok msg ∧
      ((singleOperation msg).isNone ∨ (singleOperation msg).isSome ∧ EmbedsMore count rest)

/-- A chunk from the server that embeds a run or a batch. -/
def ChunkEmbedsMore (bytes : List UInt8) (direction : Direction) : Prop :=
  direction = .serverOrigin ∧ ∃ payload throughSeq count entries,
    bytes = UInt8.ofNat PROTOCOL_VERSION :: UInt8.ofNat CONTROL_CHANNEL ::
      UInt8.ofNat CATCHUP_CHUNK :: payload ∧
    readChunkHeader.run payload = .ok ((throughSeq, count), entries) ∧ EmbedsMore count entries

/-! ### Runs of readers -/

theorem decodeChunkEntry_eq : decodeChunkEntry = primitive readEntry >>= fun frame =>
    (decodeCatchupOperation frame : Except Thrown Operation) := by
  unfold decodeChunkEntry readEntry primitive
  rw [mapError_bind, bind_assoc]

theorem run_decodeChunkEntry (s : List UInt8) : decodeChunkEntry.run s =
    match readEntry.run s with
    | .error e => .error (.protocolDecodeError e)
    | .ok (frame, rest) => (decodeCatchupOperation frame).map fun op => (op, rest) := by
  rw [decodeChunkEntry_eq, StateT.run_bind, primitive, run_mapError]
  cases readEntry.run s with
  | error e => rfl
  | ok result =>
      obtain ⟨frame, rest⟩ := result
      show (StateT.lift (decodeCatchupOperation frame) : ControlReader Operation).run rest =
        (decodeCatchupOperation frame).map fun op => (op, rest)
      cases decodeCatchupOperation frame <;> rfl

/-- The entries of a chunk throw another error exactly when one of them holds more. -/
theorem entries_foreign_iff (count : Nat) (s : List UInt8) :
    (∃ message, (readEach decodeChunkEntry count).run s = .error (.error message)) ↔
      EmbedsMore count s := by
  induction count generalizing s with
  | zero => exact ⟨nofun, nofun⟩
  | succ count ih =>
      rw [readEach, EmbedsMore, StateT.run_bind, run_decodeChunkEntry]
      cases entry : readEntry.run s with
      | error e =>
          constructor
          · rintro ⟨message, failed⟩
            cases failed
          · rintro ⟨frame, rest, msg, read, -⟩
            cases read
      | ok result =>
          obtain ⟨frame, rest⟩ := result
          simp only [decodeCatchupOperation]
          cases decoded : decodeFrame frame .clientOrigin with
          | error e =>
              constructor
              · rintro ⟨message, failed⟩
                cases failed
              · rintro ⟨frame', rest', msg, read, accepted, -⟩
                obtain ⟨rfl, rfl⟩ := Prod.mk.inj (Except.ok.inj read)
                rw [decoded] at accepted
                cases accepted
          | ok msg =>
              cases single : singleOperation msg with
              | none =>
                  simp only [single]
                  refine ⟨fun _ => ⟨frame, rest, msg, rfl, decoded, Or.inl (by rw [single]; rfl)⟩,
                    fun _ => ⟨_, rfl⟩⟩
              | some op =>
                  simp only [single]
                  have onward : (∃ message, (do
                        let as ← readEach decodeChunkEntry count
                        pure (op :: as) : ControlReader (List Operation)).run rest =
                          .error (.error message)) ↔
                      ∃ message, (readEach decodeChunkEntry count).run rest =
                        .error (.error message) := by
                    rw [StateT.run_bind]
                    cases (readEach decodeChunkEntry count).run rest with
                    | error e => exact Iff.rfl
                    | ok result => exact ⟨nofun, nofun⟩
                  refine onward.trans ((ih rest).trans ⟨fun more => ?_, ?_⟩)
                  · exact ⟨frame, rest, msg, rfl, decoded, Or.inr ⟨by rw [single]; rfl, more⟩⟩
                  · rintro ⟨frame', rest', msg', read, accepted, more⟩
                    obtain ⟨rfl, rfl⟩ := Prod.mk.inj (Except.ok.inj read)
                    obtain rfl := Except.ok.inj (decoded.symm.trans accepted)
                    rw [single] at more
                    exact (more.resolve_left nofun).2

/-! ### The four decoders -/

theorem ended_or_failed {ε α β : Type} (outcome : Except ε (α × List UInt8)) (f : α → β)
    (trailing : α → List UInt8 → ε) :
    (∃ a, outcome = .ok (a, []) ∧ (do
      let (a, remaining) ← outcome
      if remaining ≠ [] then .error (trailing a remaining) else .ok (f a)) = Except.ok (f a)) ∨
    (∃ a remaining, remaining ≠ [] ∧ outcome = .ok (a, remaining) ∧ (do
      let (a, remaining) ← outcome
      if remaining ≠ [] then .error (trailing a remaining) else .ok (f a)) =
        Except.error (trailing a remaining)) ∨
    ∃ e, outcome = .error e ∧ (do
      let (a, remaining) ← outcome
      if remaining ≠ [] then .error (trailing a remaining) else .ok (f a)) = Except.error e := by
  cases outcome with
  | error e => exact Or.inr (Or.inr ⟨e, rfl, rfl⟩)
  | ok result =>
      obtain ⟨a, remaining⟩ := result
      by_cases ended : remaining = []
      · subst ended
        exact Or.inl ⟨a, rfl, rfl⟩
      · exact Or.inr (Or.inl ⟨a, remaining, ended, rfl, if_pos ended⟩)

/-- A decoder whose only failures are those of the protocol. -/
theorem whole_or_rejected {α β : Type} (outcome : Except ProtocolDecodeError (α × List UInt8))
    (f : α → β) (trailing : α → List UInt8 → ProtocolDecodeError) :
    (∃ a, outcome = .ok (a, []) ∧ (do
      let (a, remaining) ← outcome
      if remaining ≠ [] then .error (trailing a remaining) else .ok (f a)) = Except.ok (f a)) ∨
    ∃ e, (do
      let (a, remaining) ← outcome
      if remaining ≠ [] then .error (trailing a remaining) else .ok (f a)) = Except.error e := by
  rcases ended_or_failed outcome f trailing with whole | ⟨a, remaining, -, -, failed⟩ | ⟨e, -, failed⟩
  · exact Or.inl whole
  · exact Or.inr ⟨_, failed⟩
  · exact Or.inr ⟨e, failed⟩

/-- A reader that throws errors of the protocol only. -/
def IsPrimitive (r : ControlReader WireControlMessage) : Prop := ∃ p, r = primitive p

theorem isPrimitive_ite {c : Prop} [Decidable c] {r r' : ControlReader WireControlMessage}
    (yes : c → IsPrimitive r) (no : ¬ c → IsPrimitive r') : IsPrimitive (if c then r else r') := by
  by_cases holds : c
  · rw [if_pos holds]
    exact yes holds
  · rw [if_neg holds]
    exact no holds

/-- Only a chunk is decoded by something else than primitives. -/
theorem isPrimitive_payload {messageType : Nat} (other : messageType ≠ CATCHUP_CHUNK) :
    IsPrimitive (decodeControlPayload messageType) := by
  unfold decodeControlPayload
  iterate 4 refine isPrimitive_ite (fun _ => ⟨_, rfl⟩) fun _ => ?_
  refine isPrimitive_ite (fun chunk => absurd chunk other) fun _ => ?_
  iterate 9 refine isPrimitive_ite (fun _ => ⟨_, rfl⟩) fun _ => ?_
  exact ⟨throw ⟨"UNKNOWN_MESSAGE_TYPE",
    toString messageType ++ " is not a known CONTROL message type"⟩, rfl⟩

theorem run_decodeCatchupChunkPayload (s : List UInt8) : decodeCatchupChunkPayload.run s =
    match readChunkHeader.run s with
    | .error e => .error (.protocolDecodeError e)
    | .ok ((throughSeq, count), entries) => ((readEach decodeChunkEntry count).run entries).map
        fun (ops, rest) => (.catchupChunk throughSeq ops, rest) := by
  have header : decodeCatchupChunkPayload = primitive readChunkHeader >>= fun header =>
      readEach decodeChunkEntry header.2 >>= fun ops => pure (.catchupChunk header.1 ops) := by
    unfold decodeCatchupChunkPayload readChunkHeader primitive
    simp only [mapError_bind, bind_assoc]
    rfl
  rw [header, StateT.run_bind, primitive, run_mapError]
  cases readChunkHeader.run s with
  | error e => rfl
  | ok result =>
      obtain ⟨⟨throughSeq, count⟩, entries⟩ := result
      show (do
        let (ops, rest) ← (readEach decodeChunkEntry count).run entries
        pure (.catchupChunk throughSeq ops, rest)) =
          ((readEach decodeChunkEntry count).run entries).map
            fun (ops, rest) => (WireControlMessage.catchupChunk throughSeq ops, rest)
      cases (readEach decodeChunkEntry count).run entries <;> rfl

/-- A byte that has to be the expected one. -/
theorem expected_byte {α : Type} {expected : Nat} {e : Nat → ProtocolDecodeError}
    {p : ByteReader α} {bytes : List UInt8} {result : α × List UInt8}
    (read : (do
      let b ← readByte
      if b ≠ expected then throw (e b) else p : ByteReader α).run bytes = .ok result) :
    ∃ tail, bytes = UInt8.ofNat expected :: tail ∧ p.run tail = .ok result := by
  cases bytes with
  | nil => cases read
  | cons b tail =>
      have here : (if b.toNat ≠ expected then throw (e b.toNat) else p : ByteReader α).run tail =
          .ok result := read
      by_cases same : b.toNat = expected
      · rw [if_neg (not_not.mpr same)] at here
        exact ⟨tail, by rw [← same, UInt8.ofNat_toNat], here⟩
      · rw [if_pos same] at here
        cases here

/-- The envelope of a chunk. -/
theorem chunk_of_envelope {direction : Direction} {bytes payload : List UInt8}
    (read : (readControlEnvelope direction).run bytes = .ok (CATCHUP_CHUNK, payload)) :
    direction = .serverOrigin ∧ bytes = UInt8.ofNat PROTOCOL_VERSION ::
      UInt8.ofNat CONTROL_CHANNEL :: UInt8.ofNat CATCHUP_CHUNK :: payload := by
  obtain ⟨framed, rfl, channel⟩ := expected_byte read
  obtain ⟨typed, rfl, kind⟩ := expected_byte channel
  cases typed with
  | nil => cases kind
  | cons b tail =>
      have here : (if isImplementedControlType b.toNat = false then throw _
        else if direction = .clientOrigin ∧ b.toNat ∈ SERVER_ORIGIN_TYPES then throw _
        else if direction = .serverOrigin ∧ b.toNat ∈ CLIENT_ORIGIN_TYPES then throw _
        else pure b.toNat : ByteReader Nat).run tail = .ok (CATCHUP_CHUNK, payload) := kind
      split_ifs at here with reserved client server
      · cases here
      · cases here
      · cases here
      · obtain ⟨chunk, rfl⟩ := Prod.mk.inj (Except.ok.inj here)
        rw [← chunk, UInt8.ofNat_toNat]
        refine ⟨?_, rfl⟩
        cases direction with
        | serverOrigin => rfl
        | clientOrigin => exact absurd ⟨rfl, chunk ▸ (by decide)⟩ client

theorem envelope_of_chunk (payload : List UInt8) :
    (readControlEnvelope .serverOrigin).run (UInt8.ofNat PROTOCOL_VERSION ::
      UInt8.ofNat CONTROL_CHANNEL :: UInt8.ofNat CATCHUP_CHUNK :: payload) =
        .ok (CATCHUP_CHUNK, payload) := rfl

/-- The decoder of control frames throws another error for such a chunk only. -/
theorem foreign_iff (bytes : List UInt8) (direction : Direction) :
    (∃ message, (readControlFrame direction).run bytes = .error (.error message)) ↔
      ChunkEmbedsMore bytes direction := by
  unfold readControlFrame
  rw [StateT.run_bind, primitive, run_mapError]
  cases envelope : (readControlEnvelope direction).run bytes with
  | error e =>
      constructor
      · rintro ⟨message, failed⟩
        cases failed
      · rintro ⟨rfl, payload, throughSeq, count, entries, rfl, -⟩
        rw [envelope_of_chunk] at envelope
        cases envelope
  | ok result =>
      obtain ⟨messageType, payload⟩ := result
      show (∃ message, (decodeControlPayload messageType).run payload = .error (.error message)) ↔ _
      by_cases chunk : messageType = CATCHUP_CHUNK
      · subst chunk
        obtain ⟨server, same⟩ := chunk_of_envelope envelope
        rw [show decodeControlPayload CATCHUP_CHUNK = decodeCatchupChunkPayload from rfl,
          run_decodeCatchupChunkPayload]
        cases header : readChunkHeader.run payload with
        | error e =>
            constructor
            · rintro ⟨message, failed⟩
              cases failed
            · rintro ⟨-, payload', throughSeq, count, entries, same', read, -⟩
              obtain rfl : payload = payload' := by simpa using same.symm.trans same'
              rw [header] at read
              cases read
        | ok result =>
            obtain ⟨⟨throughSeq, count⟩, entries⟩ := result
            have onward : (∃ message, ((readEach decodeChunkEntry count).run entries).map
                (fun (ops, rest) => (WireControlMessage.catchupChunk throughSeq ops, rest)) =
                  .error (.error message)) ↔ EmbedsMore count entries := by
              rw [← entries_foreign_iff]
              cases (readEach decodeChunkEntry count).run entries with
              | error e =>
                  constructor
                  · rintro ⟨message, failed⟩
                    exact ⟨message, congrArg Except.error (Except.error.inj failed)⟩
                  · rintro ⟨message, failed⟩
                    exact ⟨message, congrArg Except.error (Except.error.inj failed)⟩
              | ok result => exact ⟨nofun, nofun⟩
            refine onward.trans ⟨fun more => ?_, ?_⟩
            · exact ⟨server, payload, throughSeq, count, entries, same, header, more⟩
            · rintro ⟨-, payload', throughSeq', count', entries', same', read, more⟩
              obtain rfl : payload = payload' := by simpa using same.symm.trans same'
              obtain ⟨⟨-, rfl⟩, rfl⟩ := by simpa using header.symm.trans read
              exact more
      · obtain ⟨p, same⟩ := isPrimitive_payload chunk
        rw [same, primitive, run_mapError]
        constructor
        · rintro ⟨message, failed⟩
          cases ran : p.run payload with
          | error e => rw [ran] at failed; cases failed
          | ok result => rw [ran] at failed; cases failed
        · rintro ⟨rfl, payload', throughSeq, count, entries, rfl, -⟩
          rw [envelope_of_chunk] at envelope
          exact absurd (Prod.mk.inj (Except.ok.inj envelope)).1.symm chunk

/-- **Malformed input.** The decoders behave unless the frame is a chunk from the server that embeds
a well-formed frame of more than one operation. -/
theorem rejects_iff (bytes : List UInt8) (direction : Direction) :
    RejectsProperly bytes direction ↔ ¬ ChunkEmbedsMore bytes direction := by
  constructor
  · intro proper more
    obtain ⟨message, failed⟩ := (foreign_iff bytes direction).mpr more
    rcases proper.control with ⟨msg, whole, -⟩ | ⟨e, rejected⟩
    · rw [whole] at failed
      cases failed
    · rw [decodeControlFrame, failed] at rejected
      cases rejected
  · intro none
    constructor
    · exact whole_or_rejected ((readFrame direction).run bytes) id fun msg remaining =>
        ⟨"TRAILING_BYTES", "frame has " ++ toString remaining.length ++
          " unconsumed byte(s) after a valid " ++ msg.kind ++ " payload"⟩
    · rcases ended_or_failed ((readControlFrame direction).run bytes) id
        (fun msg remaining => .protocolDecodeError ⟨"TRAILING_BYTES", "frame has " ++
          toString remaining.length ++ " unconsumed byte(s) after a valid " ++ msg.kind ++
          " payload"⟩) with whole | ⟨msg, remaining, -, -, failed⟩ | ⟨e, ran, failed⟩
      · exact Or.inl whole
      · exact Or.inr ⟨_, failed⟩
      · cases e with
        | protocolDecodeError e => exact Or.inr ⟨e, failed⟩
        | error message => exact absurd ((foreign_iff bytes direction).mp ⟨message, ran⟩) none
    · exact whole_or_rejected ((readPresenceFrame direction).run bytes) id fun msg remaining =>
        ⟨"TRAILING_BYTES", "frame has " ++ toString remaining.length ++
          " unconsumed byte(s) after a valid " ++ msg.kind ++ " payload"⟩
    · exact whole_or_rejected (readStructureBlocks.run bytes) List.flatten fun blocks remaining =>
        ⟨"TRAILING_BYTES", "structure snapshot body has " ++ toString remaining.length ++
          " unconsumed byte(s) after " ++ toString blocks.length ++ " block(s)"⟩

/-- A chunk of one entry: the frame of a batch of two deletions. -/
def chunkOfBatch : List UInt8 := [1, 3, 5, 9, 1, 11, 1, 1, 4, 0, 2, 5, 2, 1, 1, 2, 1]

/-- The decoder of the chunk throws a plain `Error`. -/
theorem chunkOfBatch_thrown : ¬ ∀ bytes direction, RejectsProperly bytes direction := by
  intro proper
  have thrown : decodeControlFrame chunkOfBatch .serverOrigin =
      .error (.error ("decodeCatchupOperation: expected a single-operation frame " ++
        "(opInsert/opDelete/opUndelete), got opDeleteBatch — payload is corrupt")) := rfl
  rcases (proper chunkOfBatch .serverOrigin).control with ⟨msg, -, accepted⟩ | ⟨e, rejected⟩
  · rw [thrown] at accepted
    cases accepted
  · rw [thrown] at rejected
    cases rejected

end Codec

end ConfluenceEditor
