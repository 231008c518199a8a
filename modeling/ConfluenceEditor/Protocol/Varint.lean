/-
Varints over floating-point numbers.

`Varint.readVarint` follows the source: a cursor over the bytes of a frame and a result that floating-point
sums and products accumulate. It agrees with the reader of `Protocol/Codec`, which takes natural numbers
off the front of a list (`readVarint_agrees`): below `2 ^ 53` nothing is rounded, and a sum that has come up
to there never falls below again (`Agree`). `IsVarint` and `exactValue` say, without any reader, what the
encodings are and what they stand for.
-/

import ConfluenceEditor.Library.Doubles
import ConfluenceEditor.Protocol.RoundTrip
import Mathlib.Algebra.Order.Floor.Semifield

namespace ConfluenceEditor

open Wire

namespace Varint

open Codec (MAX_SAFE_INTEGER MAX_VARINT_BYTES)

/-- A cursor over the bytes of a frame. -/
structure ByteReader where
  bytes : List UInt8
  offset : Nat
  deriving DecidableEq, Repr

def readByte (reader : ByteReader) : Except ProtocolDecodeError (Nat × ByteReader) :=
  if h : reader.offset ≥ reader.bytes.length then
    .error ⟨"TRUNCATED_FRAME", "unexpected end of frame reading one byte"⟩
  else .ok (reader.bytes[reader.offset].toNat, { reader with offset := reader.offset + 1 })

/-- The quotient has the significand of `v`, so that the division does not round. -/
theorem representable_quotient {v : Nat} (safe : v ≤ MAX_SAFE_INTEGER) :
    Doubles.Representable ((v : ℚ) / 128) := by
  have small : v < 2 ^ 53 := Nat.lt_of_le_of_lt safe (by decide)
  have scaled := (Doubles.representable_natCast small).scale (-7)
  rwa [zpow_neg, ← div_eq_mul_inv] at scaled

theorem floor_quotient (v : Nat) : ⌊(v : ℚ) / 128⌋₊ = v / 128 := Nat.floor_div_eq_div v 128

/-- `v` is a safe integer: the quotient is exact (`representable_quotient`). -/
def writeVarintLoop (v : Nat) : Codec.ByteWriter Unit :=
  if ⌊(v : ℚ) / 128⌋₊ = 0 then Codec.writeByte (v % 128)
  else do
    Codec.writeByte (v % 128 ||| 0x80)
    writeVarintLoop ⌊(v : ℚ) / 128⌋₊
termination_by v
decreasing_by
  rw [floor_quotient] at *
  omega

def writeVarint (value : Nat) : Codec.ByteWriter Unit :=
  if value > MAX_SAFE_INTEGER then
    throw ("writeVarint: value " ++ toString value ++ " exceeds Number.MAX_SAFE_INTEGER")
  else writeVarintLoop value

/-- The loop of `readVarint`, with the number of bytes it may still read. -/
def readVarintLoop : Nat → Nat → Nat → ByteReader → Except ProtocolDecodeError (Nat × ByteReader)
  | 0, _, _, _ => .error ⟨"VARINT_OVERFLOW", "varint exceeds the maximum encodable length"⟩
  | bytesLeft + 1, result, multiplier, reader =>
      match readByte reader with
      | .error e => .error e
      | .ok (byte, reader') =>
          let result' := Doubles.add result (Doubles.mul (byte &&& 0x7f) multiplier)
          if byte &&& 0x80 ≠ 0 then
            readVarintLoop bytesLeft result' (Doubles.mul multiplier 128) reader'
          else .ok (result', reader')

def readVarint (reader : ByteReader) : Except ProtocolDecodeError (Nat × ByteReader) :=
  match readVarintLoop MAX_VARINT_BYTES 0 1 reader with
  | .error e => .error e
  | .ok (result, reader') =>
      if result > MAX_SAFE_INTEGER then
        .error ⟨"VARINT_OVERFLOW", "decoded varint exceeds Number.MAX_SAFE_INTEGER"⟩
      else .ok (result, reader')

/-! ### What is not rounded -/

/-- The accumulated number is the exact one, or both are too large. -/
def Agree (result exact : Nat) : Prop :=
  result = exact ∧ exact < 2 ^ 53 ∨ 2 ^ 53 ≤ result ∧ 2 ^ 53 ≤ exact

/-- A group of seven bits, scaled, and the next scale. -/
theorem mul_group {group : Nat} (small : group < 128) (i : Nat) :
    Doubles.mul group (128 ^ i) = group * 128 ^ i := by
  have power : 128 ^ i = 2 ^ (7 * i) := by rw [Nat.pow_mul]
  rw [Doubles.mul, power]
  exact Doubles.round_eq (Doubles.representable_multiple (by omega))

theorem mul_scale (i : Nat) : Doubles.mul (128 ^ i) 128 = 128 ^ (i + 1) := by
  have power : 128 ^ i * 128 = 1 * 2 ^ (7 * (i + 1)) := by
    rw [← Nat.pow_succ, Nat.one_mul, Nat.pow_mul]
  rw [Doubles.mul, power, Doubles.round_eq (Doubles.representable_multiple (by decide)), ← power,
    Nat.pow_succ]

theorem Agree.add {result exact : Nat} (agree : Agree result exact) (n : Nat) :
    Agree (Doubles.add result n) (exact + n) := by
  have edge : Doubles.Representable ((2 ^ 53 : Nat) : ℚ) := by
    have whole := Doubles.representable_multiple (c := 1) (e := 53) (by decide)
    rwa [Nat.one_mul] at whole
  rcases agree with ⟨rfl, small⟩ | ⟨large, large'⟩
  · by_cases fits : result + n < 2 ^ 53
    · exact Or.inl ⟨Doubles.round_eq (Doubles.representable_natCast fits), fits⟩
    · have reached : 2 ^ 53 ≤ result + n := Nat.le_of_not_lt fits
      exact Or.inr ⟨Doubles.le_round edge reached, reached⟩
  · exact Or.inr ⟨Doubles.le_round edge (Nat.le_trans large (Nat.le_add_right _ _)),
      Nat.le_trans large' (Nat.le_add_right _ _)⟩

/-! ### The reader of lists -/

/-- The cursor stands in front of what the reader of lists has left. -/
def Behind (bytes : List UInt8) (rest : List UInt8) (reader : ByteReader) : Prop :=
  reader.bytes = bytes ∧ rest = bytes.drop reader.offset

/-- Both fail alike, or both return, with agreeing numbers and at the same place. -/
def Matches (same : Nat → Nat → Prop) (bytes : List UInt8) :
    Except ProtocolDecodeError (Nat × ByteReader) →
    Except ProtocolDecodeError (Nat × List UInt8) → Prop
  | .ok (result, reader), .ok (exact, rest) =>
      same result exact ∧ Behind bytes rest reader ∧ reader.offset ≤ bytes.length
  | .error e, .error e' => e = e'
  | _, _ => False

theorem readByte_matches {bytes rest : List UInt8} {reader : ByteReader}
    (behind : Behind bytes rest reader) :
    Matches (· = ·) bytes (readByte reader) (Codec.readByte.run rest) := by
  have ⟨rfl, place⟩ := behind
  rw [place, readByte]
  by_cases ended : reader.offset ≥ reader.bytes.length
  · rw [dif_pos ended, List.drop_eq_nil_of_le ended]
    rfl
  · have inside : reader.offset < reader.bytes.length := Nat.lt_of_not_le ended
    rw [dif_neg ended, List.drop_eq_getElem_cons inside]
    exact ⟨rfl, ⟨rfl, rfl⟩, inside⟩

/-- The accumulated number stands for the exact one, however many groups follow. -/
theorem readVarintLoop_matches {bytes : List UInt8} (bytesLeft : Nat) {i result exact : Nat}
    (agree : Agree result exact) {rest : List UInt8} {reader : ByteReader}
    (behind : Behind bytes rest reader) :
    Matches Agree bytes (readVarintLoop bytesLeft result (128 ^ i) reader)
      ((Codec.readVarintLoop bytesLeft exact (128 ^ i)).run rest) := by
  induction bytesLeft generalizing i result exact rest reader with
  | zero => rfl
  | succ bytesLeft ih =>
      have first := readByte_matches behind
      rw [readVarintLoop, Codec.readVarintLoop, StateT.run_bind]
      cases cursor : readByte reader with
      | error e =>
          cases list : Codec.readByte.run rest with
          | error e' =>
              rw [cursor, list] at first
              exact first
          | ok read =>
              rw [cursor, list] at first
              exact first.elim
      | ok read =>
          cases list : Codec.readByte.run rest with
          | error e' =>
              rw [cursor, list] at first
              exact first.elim
          | ok read' =>
              rw [cursor, list] at first
              have ⟨same, behind', inside⟩ := first
              have low : read.1 &&& 0x7f < 128 := by
                rw [Codec.low_seven_bits]
                exact Nat.mod_lt _ (by decide)
              have sum : Agree (Doubles.add result (Doubles.mul (read.1 &&& 0x7f) (128 ^ i)))
                  (exact + (read'.1 &&& 0x7f) * 128 ^ i) := by
                rw [mul_group low, ← same]
                exact agree.add _
              show Matches Agree bytes
                (if read.1 &&& 0x80 ≠ 0 then _ else _)
                ((if read'.1 &&& 0x80 ≠ 0 then _ else _ : Codec.ByteReader Nat).run read'.2)
              by_cases more : read.1 &&& 0x80 ≠ 0
              · have more' : read'.1 &&& 0x80 ≠ 0 := same ▸ more
                rw [if_pos more, if_pos more', mul_scale, ← Nat.pow_succ]
                exact ih sum behind'
              · have last : ¬ read'.1 &&& 0x80 ≠ 0 := same ▸ more
                rw [if_neg more, if_neg last]
                exact ⟨sum, behind', inside⟩

/-- Nothing is rounded that is not refused. -/
theorem readVarint_agrees (reader : ByteReader) :
    Matches (· = ·) reader.bytes (readVarint reader)
      (Codec.readVarint.run (reader.bytes.drop reader.offset)) := by
  have agree : Agree 0 0 := Or.inl ⟨rfl, by decide⟩
  have loop := readVarintLoop_matches (i := 0) MAX_VARINT_BYTES agree
    (show Behind reader.bytes (reader.bytes.drop reader.offset) reader from ⟨rfl, rfl⟩)
  rw [Nat.pow_zero] at loop
  rw [readVarint, Codec.readVarint, StateT.run_bind]
  cases cursor : readVarintLoop MAX_VARINT_BYTES 0 1 reader with
  | error e =>
      cases list : (Codec.readVarintLoop MAX_VARINT_BYTES 0 1).run
          (reader.bytes.drop reader.offset) with
      | error e' =>
          rw [cursor, list] at loop
          exact loop
      | ok read =>
          rw [cursor, list] at loop
          exact loop.elim
  | ok read =>
      cases list : (Codec.readVarintLoop MAX_VARINT_BYTES 0 1).run
          (reader.bytes.drop reader.offset) with
      | error e' =>
          rw [cursor, list] at loop
          exact loop.elim
      | ok read' =>
          rw [cursor, list] at loop
          have ⟨agree', behind⟩ := loop
          have edge : MAX_SAFE_INTEGER + 1 = 2 ^ 53 := rfl
          show Matches (· = ·) reader.bytes (if read.1 > MAX_SAFE_INTEGER then _ else _)
            ((if read'.1 > MAX_SAFE_INTEGER then _ else _ : Codec.ByteReader Nat).run read'.2)
          rcases agree' with ⟨same, small⟩ | ⟨large, large'⟩
          · rw [if_neg (by omega), if_neg (by omega)]
            exact ⟨same, behind⟩
          · rw [if_pos (by omega), if_pos (by omega)]
            rfl

/-- Every quotient of a safe integer is a safe integer. -/
theorem writeVarintLoop_eq (v : Nat) : writeVarintLoop v = Codec.writeVarintLoop v := by
  induction v using Nat.strongRecOn with
  | ind v ih =>
      rw [writeVarintLoop, Codec.writeVarintLoop, floor_quotient]
      by_cases last : v / 128 = 0
      · rw [if_pos last, dif_pos last]
      · rw [if_neg last, dif_neg last, ih (v / 128) (by omega)]

theorem writeVarint_eq (value : Nat) : writeVarint value = Codec.writeVarint value := by
  rw [writeVarint, Codec.writeVarint, writeVarintLoop_eq]

/-! ### The encodings -/

/-- Bytes that announce a further one, and a last byte that does not. -/
inductive IsVarint : List UInt8 → Prop
  | last {b : UInt8} (stops : b.toNat < 128) : IsVarint [b]
  | more {b : UInt8} {bytes : List UInt8} (continues : 128 ≤ b.toNat) (rest : IsVarint bytes) :
      IsVarint (b :: bytes)

/-- Groups of seven bits, the lowest first. -/
def exactValue : List UInt8 → Nat
  | [] => 0
  | b :: bytes => b.toNat % 128 + 128 * exactValue bytes

theorem run_cons (bytesLeft result multiplier : Nat) (b : UInt8) (s : List UInt8) :
    (Codec.readVarintLoop (bytesLeft + 1) result multiplier).run (b :: s) =
      if 128 ≤ b.toNat then
        (Codec.readVarintLoop bytesLeft (result + b.toNat % 128 * multiplier)
          (multiplier * 128)).run s
      else .ok (result + b.toNat % 128 * multiplier, s) := by
  show (if b.toNat &&& 0x80 ≠ 0 then
      Codec.readVarintLoop bytesLeft (result + (b.toNat &&& 0x7f) * multiplier) (multiplier * 128)
    else pure (result + (b.toNat &&& 0x7f) * multiplier)).run s = _
  have continues := Codec.continues_iff b.toNat_lt
  rw [Codec.low_seven_bits]
  by_cases more : 128 ≤ b.toNat
  · rw [if_pos (continues.mpr more), if_pos more]
  · rw [if_neg (mt continues.mp more), if_neg more]
    rfl

theorem run_loop_iff (bytesLeft result multiplier : Nat) (s : List UInt8) (n : Nat)
    (rest : List UInt8) :
    (Codec.readVarintLoop bytesLeft result multiplier).run s = .ok (n, rest) ↔
      ∃ encoding, s = encoding ++ rest ∧ IsVarint encoding ∧ encoding.length ≤ bytesLeft ∧
        n = result + exactValue encoding * multiplier := by
  induction bytesLeft generalizing result multiplier s with
  | zero =>
      refine ⟨fun ran => (by cases ran), fun ⟨encoding, _, form, short, _⟩ => ?_⟩
      cases form with
      | last => exact absurd short (by simp)
      | more => exact absurd short (by simp)
  | succ bytesLeft ih =>
      cases s with
      | nil =>
          refine ⟨fun ran => (by cases ran), fun ⟨encoding, same, form, _, _⟩ => ?_⟩
          have ⟨empty, _⟩ := List.append_eq_nil_iff.mp same.symm
          rw [empty] at form
          cases form
      | cons b s =>
          rw [run_cons]
          by_cases more : 128 ≤ b.toNat
          · rw [if_pos more, ih]
            constructor
            · rintro ⟨encoding, rfl, form, short, rfl⟩
              refine ⟨b :: encoding, rfl, .more more form, Nat.succ_le_succ short, ?_⟩
              rw [exactValue]
              ring
            · rintro ⟨encoding, same, form, short, rfl⟩
              cases form with
              | last stops =>
                  have ⟨first, _⟩ := List.cons.inj same
                  rw [first] at more
                  exact absurd more (Nat.not_le.mpr stops)
              | more continues form =>
                  have ⟨first, tail⟩ := List.cons.inj same
                  refine ⟨_, tail, form, Nat.le_of_succ_le_succ short, ?_⟩
                  rw [exactValue, first]
                  ring
          · rw [if_neg more]
            constructor
            · intro ran
              have ⟨value, tail⟩ := Prod.mk.inj (Except.ok.inj ran)
              refine ⟨[b], by rw [tail]; rfl, .last (Nat.lt_of_not_le more),
                Nat.succ_le_succ (Nat.zero_le _), ?_⟩
              rw [← value, exactValue, exactValue]
              ring
            · rintro ⟨encoding, same, form, short, rfl⟩
              cases form with
              | last stops =>
                  have ⟨first, tail⟩ := List.cons.inj same
                  rw [exactValue, exactValue, first, tail]
                  simp
              | more continues form =>
                  have ⟨first, _⟩ := List.cons.inj same
                  rw [first] at more
                  exact absurd continues more

theorem run_varint_iff (s : List UInt8) (value : Nat) (rest : List UInt8) :
    Codec.readVarint.run s = .ok (value, rest) ↔
      ∃ encoding, s = encoding ++ rest ∧ IsVarint encoding ∧ encoding.length ≤ MAX_VARINT_BYTES ∧
        exactValue encoding = value ∧ value ≤ MAX_SAFE_INTEGER := by
  rw [Codec.readVarint, StateT.run_bind]
  constructor
  · intro ran
    cases loop : (Codec.readVarintLoop MAX_VARINT_BYTES 0 1).run s with
    | error e =>
        rw [loop] at ran
        cases ran
    | ok read =>
        rw [loop] at ran
        replace ran : (if read.1 > MAX_SAFE_INTEGER then _ else pure read.1 :
          Codec.ByteReader Nat).run read.2 = _ := ran
        by_cases large : read.1 > MAX_SAFE_INTEGER
        · rw [if_pos large] at ran
          cases ran
        · rw [if_neg large] at ran
          have ⟨same, tail⟩ := Prod.mk.inj (Except.ok.inj ran)
          have ⟨encoding, split, form, short, number⟩ := (run_loop_iff _ _ _ _ _ _).mp loop
          rw [Nat.zero_add, Nat.mul_one] at number
          exact ⟨encoding, by rw [split, tail], form, short, by rw [← number, same],
            same ▸ Nat.le_of_not_lt large⟩
  · rintro ⟨encoding, split, form, short, rfl, safe⟩
    have loop := (run_loop_iff MAX_VARINT_BYTES 0 1 s (exactValue encoding) rest).mpr
      ⟨encoding, split, form, short, by rw [Nat.zero_add, Nat.mul_one]⟩
    rw [loop]
    show (if exactValue encoding > MAX_SAFE_INTEGER then _ else pure _ :
      Codec.ByteReader Nat).run rest = _
    rw [if_neg (Nat.not_lt.mpr safe)]
    rfl

/-- What the cursor passes over is the encoding. -/
theorem Behind.offset_eq {reader reader' : ByteReader} {encoding rest : List UInt8}
    (split : reader.bytes.drop reader.offset = encoding ++ rest) (form : IsVarint encoding)
    (behind : Behind reader.bytes rest reader') (inside : reader'.offset ≤ reader.bytes.length) :
    reader' = { reader with offset := reader.offset + encoding.length } := by
  have ⟨same, place⟩ := behind
  have nonempty : 0 < encoding.length := by cases form <;> exact Nat.succ_pos _
  have before := congrArg List.length split
  have after := congrArg List.length place
  rw [List.length_append, List.length_drop] at before
  rw [List.length_drop] at after
  cases reader'
  show ByteReader.mk _ _ = ByteReader.mk _ _
  congr 1
  show _ = reader.offset + encoding.length
  dsimp only at after inside
  omega

theorem readVarint_iff (reader reader' : ByteReader) (value : Nat) :
    readVarint reader = .ok (value, reader') ↔
      ∃ encoding, encoding <+: reader.bytes.drop reader.offset ∧ IsVarint encoding ∧
        encoding.length ≤ MAX_VARINT_BYTES ∧ exactValue encoding = value ∧
        value ≤ MAX_SAFE_INTEGER ∧
        reader' = { reader with offset := reader.offset + encoding.length } := by
  have agrees := readVarint_agrees reader
  constructor
  · intro ran
    rw [ran] at agrees
    cases list : Codec.readVarint.run (reader.bytes.drop reader.offset) with
    | error e =>
        rw [list] at agrees
        exact agrees.elim
    | ok read =>
        rw [list] at agrees
        have ⟨same, behind, inside⟩ := agrees
        have ⟨encoding, split, form, short, number, safe⟩ := (run_varint_iff _ _ _).mp list
        exact ⟨encoding, ⟨read.2, split.symm⟩, form, short, number.trans same.symm,
          same ▸ safe, behind.offset_eq split form inside⟩
  · rintro ⟨encoding, ⟨rest, split⟩, form, short, number, safe, rfl⟩
    have list := (run_varint_iff _ value rest).mpr ⟨encoding, split.symm, form, short, number, safe⟩
    rw [list] at agrees
    cases cursor : readVarint reader with
    | error e =>
        rw [cursor] at agrees
        exact agrees.elim
    | ok read =>
        rw [cursor] at agrees
        have ⟨same, behind, inside⟩ := agrees
        have place := behind.offset_eq split.symm form inside
        rw [← place, ← same]

/-- Up to `2 ^ 53 - 1` what is written is read back, wherever it stands, and the cursor stands behind it.
What is accepted is exactly a complete encoding of ten bytes at most of such a number, and the number is
returned. -/
theorem varints_are_exact :
    (∀ value ≤ MAX_SAFE_INTEGER, ∃ written,
      (∀ before, (writeVarint value).run before = .ok ((), before ++ written)) ∧
      ∀ before after, readVarint ⟨before ++ written ++ after, before.length⟩ =
        .ok (value, ⟨before ++ written ++ after, before.length + written.length⟩)) ∧
    ∀ (reader reader' : ByteReader) (value : Nat),
      readVarint reader = .ok (value, reader') ↔
        ∃ encoding, encoding <+: reader.bytes.drop reader.offset ∧ IsVarint encoding ∧
          encoding.length ≤ MAX_VARINT_BYTES ∧ exactValue encoding = value ∧
          value ≤ MAX_SAFE_INTEGER ∧
          reader' = { reader with offset := reader.offset + encoding.length } := by
  refine ⟨fun value safe => ?_, readVarint_iff⟩
  have ⟨written, writes, reads⟩ := Codec.codes_varint safe
  refine ⟨written, fun before => ?_, fun before after => ?_⟩
  · rw [writeVarint_eq]
    exact writes before
  · have ⟨encoding, split, form, short, number, _⟩ := (run_varint_iff _ _ _).mp (reads after)
    have same : written = encoding := List.append_cancel_right split
    rw [readVarint_iff, List.append_assoc]
    refine ⟨written, ?_, same ▸ form, same ▸ short, same ▸ number, safe, rfl⟩
    show written <+: (before ++ (written ++ after)).drop before.length
    rw [List.drop_left]
    exact List.prefix_append written after

end Varint

end ConfluenceEditor
