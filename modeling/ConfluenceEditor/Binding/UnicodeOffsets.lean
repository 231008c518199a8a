/-
Offsets in scalars and offsets in code units.

The engine counts scalars, the DOM counts UTF-16 code units. The two conversions go through a string
character by character, as its iteration yields them, and stop where the counted offset is. They are
inverse to each other (`scalarToUtf16_iff_utf16ToScalar`), on every string; neither rounds an offset
that is beyond the end or between the two units of a pair.
-/

import ConfluenceEditor.Library.Utf16

namespace ConfluenceEditor

namespace UnicodeOffsets

open Utf16

/-- The characters that the iteration of a string yields, each with its code units. -/
def characters (text : List Nat) : List (List Nat) := (codePoints text).map units

def scalarToUtf16Loop (scalarOffset : Nat) : List (List Nat) → Nat → Nat → Except String Nat
  | [], utf16, scalar =>
      if scalar = scalarOffset then .ok utf16
      else .error ("scalarToUtf16: offset " ++ toString scalarOffset ++ " exceeds " ++
        toString scalar ++ " scalar value(s) in text")
  | ch :: text, utf16, scalar =>
      if scalar = scalarOffset then .ok utf16
      else scalarToUtf16Loop scalarOffset text (utf16 + ch.length) (scalar + 1)

def scalarToUtf16 (text : List Nat) (scalarOffset : Int) : Except String Nat :=
  if scalarOffset < 0 then
    .error ("scalarToUtf16: scalarOffset must be a non-negative integer, got " ++
      toString scalarOffset)
  else scalarToUtf16Loop scalarOffset.toNat (characters text) 0 0

def utf16ToScalarLoop (utf16Offset : Nat) : List (List Nat) → Nat → Nat → Except String Nat
  | [], utf16, scalar =>
      if utf16 = utf16Offset then .ok scalar
      else .error ("utf16ToScalar: offset " ++ toString utf16Offset ++ " exceeds " ++
        toString utf16 ++ " UTF-16 code unit(s) in text")
  | ch :: text, utf16, scalar =>
      if utf16 = utf16Offset then .ok scalar
      else if utf16Offset < utf16 + ch.length then
        .error ("utf16ToScalar: offset " ++ toString utf16Offset ++
          " splits a surrogate pair at UTF-16 index " ++ toString utf16)
      else utf16ToScalarLoop utf16Offset text (utf16 + ch.length) (scalar + 1)

def utf16ToScalar (text : List Nat) (utf16Offset : Int) : Except String Nat :=
  if utf16Offset < 0 then
    .error ("utf16ToScalar: utf16Offset must be a non-negative integer, got " ++
      toString utf16Offset)
  else utf16ToScalarLoop utf16Offset.toNat (characters text) 0 0

def isInsideSurrogatePair (text : List Nat) (offset : Int) : Bool :=
  if offset ≤ 0 ∨ (text.length : Int) ≤ offset then false
  else isHigh (text[offset.toNat - 1]?.getD 0) && isLow (text[offset.toNat]?.getD 0)

/-! ### What the loops return -/

/-- The number of code units of the first `k` characters. -/
def width (chars : List (List Nat)) (k : Nat) : Nat := (chars.take k).flatten.length

@[simp] theorem width_zero (chars : List (List Nat)) : width chars 0 = 0 := rfl

@[simp] theorem width_succ_cons (ch : List Nat) (chars : List (List Nat)) (k : Nat) :
    width (ch :: chars) (k + 1) = ch.length + width chars k := by
  rw [width, List.take_succ_cons, List.flatten_cons, List.length_append]
  rfl

theorem scalarToUtf16Loop_iff {scalarOffset utf16 scalar u : Nat} {chars : List (List Nat)} :
    scalarToUtf16Loop scalarOffset chars utf16 scalar = .ok u ↔
      ∃ k ≤ chars.length, scalarOffset = scalar + k ∧ u = utf16 + width chars k := by
  induction chars generalizing utf16 scalar with
  | nil =>
      rw [scalarToUtf16Loop]
      by_cases here : scalar = scalarOffset
      · rw [if_pos here]
        constructor
        · intro done
          cases done
          exact ⟨0, Nat.le_refl 0, here.symm, rfl⟩
        · rintro ⟨k, none, _, same⟩
          rw [same, Nat.le_zero.mp none]
          rfl
      · rw [if_neg here]
        refine iff_of_false nofun ?_
        rintro ⟨k, none, same, _⟩
        exact here (by rw [same, Nat.le_zero.mp none, Nat.add_zero])
  | cons ch chars ih =>
      rw [scalarToUtf16Loop]
      by_cases here : scalar = scalarOffset
      · rw [if_pos here]
        constructor
        · intro done
          cases done
          exact ⟨0, Nat.zero_le _, here.symm, rfl⟩
        · rintro ⟨k, _, same, width⟩
          have zero : k = 0 := by omega
          rw [width, zero]
          rfl
      · rw [if_neg here, ih]
        constructor
        · rintro ⟨k, inside, same, width⟩
          refine ⟨k + 1, Nat.succ_le_succ inside, by omega, ?_⟩
          rw [width, width_succ_cons, Nat.add_assoc]
        · rintro ⟨k, inside, same, width⟩
          cases k with
          | zero => exact absurd same.symm here
          | succ k =>
              refine ⟨k, Nat.le_of_succ_le_succ inside, by omega, ?_⟩
              rw [width, width_succ_cons, Nat.add_assoc]

theorem utf16ToScalarLoop_iff {utf16Offset utf16 scalar s : Nat} {chars : List (List Nat)}
    (nonempty : ∀ ch ∈ chars, ch ≠ []) :
    utf16ToScalarLoop utf16Offset chars utf16 scalar = .ok s ↔
      ∃ k ≤ chars.length, s = scalar + k ∧ utf16Offset = utf16 + width chars k := by
  induction chars generalizing utf16 scalar with
  | nil =>
      rw [utf16ToScalarLoop]
      by_cases here : utf16 = utf16Offset
      · rw [if_pos here]
        constructor
        · intro done
          cases done
          exact ⟨0, Nat.le_refl 0, rfl, here.symm⟩
        · rintro ⟨k, none, same, _⟩
          rw [same, Nat.le_zero.mp none]
          rfl
      · rw [if_neg here]
        refine iff_of_false nofun ?_
        rintro ⟨k, none, _, same⟩
        exact here (by rw [same, Nat.le_zero.mp none]; rfl)
  | cons ch chars ih =>
      have ⟨here, others⟩ := List.forall_mem_cons.mp nonempty
      have positive := List.length_pos_iff.mpr here
      rw [utf16ToScalarLoop]
      by_cases here : utf16 = utf16Offset
      · rw [if_pos here]
        constructor
        · intro done
          cases done
          exact ⟨0, Nat.zero_le _, rfl, here.symm⟩
        · rintro ⟨k, _, same, units⟩
          cases k with
          | zero => rw [same, Nat.add_zero]
          | succ k =>
              rw [width_succ_cons] at units
              omega
      · rw [if_neg here]
        by_cases splits : utf16Offset < utf16 + ch.length
        · rw [if_pos splits]
          refine iff_of_false nofun ?_
          rintro ⟨k, _, _, units⟩
          cases k with
          | zero => exact here units.symm
          | succ k =>
              rw [width_succ_cons] at units
              omega
        · rw [if_neg splits, ih others]
          constructor
          · rintro ⟨k, inside, same, units⟩
            refine ⟨k + 1, Nat.succ_le_succ inside, by omega, ?_⟩
            rw [units, width_succ_cons, Nat.add_assoc]
          · rintro ⟨k, inside, same, units⟩
            cases k with
            | zero => exact absurd units.symm here
            | succ k =>
                refine ⟨k, Nat.le_of_succ_le_succ inside, by omega, ?_⟩
                rw [units, width_succ_cons, Nat.add_assoc]

/-! ### The conversions -/

/-- The width of characters is the length of what they spell. -/
theorem width_characters (text : List Nat) (k : Nat) :
    width (characters text) k = (encode ((codePoints text).take k)).length := by
  rw [width, characters, ← List.map_take, encode, List.flatMap_def]

theorem scalarToUtf16_iff {text : List Nat} {scalarOffset : Int} {u : Nat} :
    scalarToUtf16 text scalarOffset = .ok u ↔ ∃ k ≤ (codePoints text).length,
      scalarOffset = k ∧ u = (encode ((codePoints text).take k)).length := by
  have length : (characters text).length = (codePoints text).length := List.length_map ..
  rw [scalarToUtf16]
  by_cases negative : scalarOffset < 0
  · rw [if_pos negative]
    refine iff_of_false nofun ?_
    rintro ⟨k, _, same, _⟩
    omega
  · rw [if_neg negative, scalarToUtf16Loop_iff, length]
    refine exists_congr fun k => and_congr_right fun _ => ?_
    rw [width_characters, Nat.zero_add, Nat.zero_add]
    exact and_congr_left fun _ => by omega

theorem utf16ToScalar_iff {text : List Nat} {utf16Offset : Int} {s : Nat} :
    utf16ToScalar text utf16Offset = .ok s ↔ s ≤ (codePoints text).length ∧
      utf16Offset = (encode ((codePoints text).take s)).length := by
  have length : (characters text).length = (codePoints text).length := List.length_map ..
  have nonempty : ∀ ch ∈ characters text, ch ≠ [] := by
    intro ch member
    have ⟨v, _, same⟩ := List.mem_map.mp member
    rw [← same]
    exact List.length_pos_iff.mp (length_units_pos v)
  rw [utf16ToScalar]
  by_cases negative : utf16Offset < 0
  · rw [if_pos negative]
    refine iff_of_false nofun ?_
    rintro ⟨_, same⟩
    omega
  · rw [if_neg negative, utf16ToScalarLoop_iff nonempty, length]
    constructor
    · rintro ⟨k, inside, same, units⟩
      rw [Nat.zero_add] at same units
      rw [width_characters] at units
      rw [same]
      exact ⟨inside, by omega⟩
    · rintro ⟨inside, units⟩
      refine ⟨s, inside, (Nat.zero_add s).symm, ?_⟩
      rw [width_characters, Nat.zero_add]
      omega

/-- The conversions are inverse to each other. -/
theorem scalarToUtf16_iff_utf16ToScalar (text : List Nat) (s u : Nat) :
    scalarToUtf16 text s = .ok u ↔ utf16ToScalar text u = .ok s := by
  rw [scalarToUtf16_iff, utf16ToScalar_iff]
  constructor
  · rintro ⟨k, inside, same, units⟩
    cases Int.ofNat.inj same
    exact ⟨inside, congrArg Nat.cast units⟩
  · rintro ⟨inside, units⟩
    exact ⟨s, inside, rfl, Int.ofNat.inj units⟩

/-! ### Well-formed strings -/

/-- Every surrogate of the string is half of a pair. -/
def WellFormed (text : List Nat) : Prop :=
  (∀ u ∈ text, u < 0x10000) ∧ ∀ v ∈ codePoints text, v.isValidChar

instance (text : List Nat) : Decidable (WellFormed text) := inferInstanceAs (Decidable (_ ∧ _))

theorem units_lt {v : Nat} (small : v ≤ 0x10ffff) : ∀ u ∈ units v, u < 0x10000 := by
  intro u member
  by_cases single : v < 0x10000
  · rw [units_of_lt single] at member
    rw [List.mem_singleton.mp member]
    exact single
  · rw [units_of_le (Nat.not_lt.mp single)] at member
    rcases List.mem_cons.mp member with same | later
    · omega
    · have same := List.mem_singleton.mp later
      omega

theorem le_of_isValidChar {v : Nat} (scalar : v.isValidChar) : v ≤ 0x10ffff := by
  rw [scalar_iff] at scalar
  omega

theorem encode_lt {t : List Nat} (small : ∀ v ∈ t, v ≤ 0x10ffff) : ∀ u ∈ encode t, u < 0x10000 := by
  intro u member
  have ⟨v, inside, here⟩ := List.mem_flatMap.mp member
  exact units_lt (small v inside) u here

theorem wellFormed_encode {t : List Nat} (scalar : ∀ v ∈ t, v.isValidChar) :
    WellFormed (encode t) := by
  refine ⟨encode_lt fun v member => le_of_isValidChar (scalar v member), ?_⟩
  rw [codePoints_encode scalar]
  exact scalar

theorem WellFormed.encode {text : List Nat} (wellFormed : WellFormed text) :
    encode (codePoints text) = text :=
  encode_codePoints wellFormed.1

/-- Behind `a` the string `b` decides, where there is a unit of `b` on both sides. -/
theorem isInside_append (a b : List Nat) {u : Nat} (behind : 0 < u) :
    isInsideSurrogatePair (a ++ b) (a.length + u : Nat) = isInsideSurrogatePair b u := by
  have before : (a ++ b)[a.length + u - 1]? = b[u - 1]? := by
    rw [List.getElem?_append_right (by omega)]
    congr 1
    omega
  have after : (a ++ b)[a.length + u]? = b[u]? := by
    rw [List.getElem?_append_right (by omega)]
    congr 1
    omega
  rw [isInsideSurrogatePair, isInsideSurrogatePair]
  refine if_congr ?_ rfl ?_
  · rw [List.length_append]
    omega
  · rw [Int.toNat_natCast, Int.toNat_natCast, before, after]

theorem getElem?_first (a : Nat) (rest : List Nat) : (a :: rest)[0]?.getD 0 = a := rfl

theorem getElem?_second (a b : Nat) (rest : List Nat) : (a :: b :: rest)[1]?.getD 0 = b := rfl

/-- Behind a scalar no pair is cut. -/
theorem isInside_units {v : Nat} (scalar : v.isValidChar) (rest : List Nat) :
    isInsideSurrogatePair (units v ++ rest) (units v).length = false := by
  rw [scalar_iff] at scalar
  have last : isHigh ((units v ++ rest)[(units v).length - 1]?.getD 0) = false := by
    by_cases small : v < 0x10000
    · have only : (units v ++ rest)[(units v).length - 1]?.getD 0 = v := by
        rw [units_of_lt small]
        exact getElem?_first v rest
      rw [only, ← Bool.not_eq_true, isHigh_iff]
      omega
    · have second : (units v ++ rest)[(units v).length - 1]?.getD 0 =
          0xdc00 + (v - 0x10000) % 0x400 := by
        rw [units_of_le (Nat.not_lt.mp small)]
        exact getElem?_second _ _ rest
      rw [second, ← Bool.not_eq_true, isHigh_iff]
      omega
  rw [isInsideSurrogatePair, Int.toNat_natCast, last, Bool.false_and, ite_self]

/-- The offset `1` of a pair is inside it. -/
theorem isInside_pair {v : Nat} (scalar : v.isValidChar) (large : 0x10000 ≤ v) (rest : List Nat) :
    isInsideSurrogatePair (units v ++ rest) 1 = true := by
  rw [scalar_iff] at scalar
  have first : (units v ++ rest)[0]?.getD 0 = 0xd800 + (v - 0x10000) / 0x400 := by
    rw [units_of_le large]
    exact getElem?_first _ _
  have second : (units v ++ rest)[1]?.getD 0 = 0xdc00 + (v - 0x10000) % 0x400 := by
    rw [units_of_le large]
    exact getElem?_second _ _ rest
  have length : (units v).length = 2 := by
    rw [length_units, if_neg (Nat.not_lt.mpr large)]
  rw [isInsideSurrogatePair, if_neg]
  · show (isHigh ((units v ++ rest)[0]?.getD 0) && isLow ((units v ++ rest)[1]?.getD 0)) = true
    rw [first, second, Bool.and_eq_true, isHigh_iff, isLow_iff]
    omega
  · rw [List.length_append, length]
    omega

/-- An offset is on the boundary of a scalar exactly when it is not inside a pair. -/
theorem boundary_iff {t : List Nat} (scalar : ∀ v ∈ t, v.isValidChar) {u : Nat}
    (inside : u ≤ (encode t).length) : (∃ k ≤ t.length, u = (encode (t.take k)).length) ↔
      isInsideSurrogatePair (encode t) u = false := by
  induction t generalizing u with
  | nil =>
      refine iff_of_true ⟨0, Nat.le_refl 0, Nat.le_zero.mp inside⟩ ?_
      rw [Nat.le_zero.mp inside]
      rfl
  | cons v t ih =>
      have ⟨here, later⟩ := List.forall_mem_cons.mp scalar
      rw [encode_cons] at inside ⊢
      rw [List.length_append] at inside
      have width := length_units_pos v
      by_cases start : u = 0
      · rw [start]
        exact iff_of_true ⟨0, Nat.zero_le _, rfl⟩ rfl
      by_cases within : u < (units v).length
      · -- the middle of a pair
        have large : 0x10000 ≤ v := by
          by_contra small
          rw [units_of_lt (Nat.lt_of_not_le small), List.length_singleton] at within
          omega
        have two : (units v).length = 2 := by
          rw [units_of_le large]
          rfl
        have middle : u = 1 := by omega
        rw [middle]
        refine iff_of_false ?_ (Bool.not_eq_false _ ▸ isInside_pair here large _)
        rintro ⟨k, _, same⟩
        cases k with
        | zero => cases same
        | succ k =>
            rw [List.take_succ_cons, encode_cons, List.length_append] at same
            omega
      · have ⟨w, sum⟩ := Nat.exists_eq_add_of_le (Nat.not_lt.mp within)
        have shifted : (∃ k ≤ (v :: t).length, u = (encode ((v :: t).take k)).length) ↔
            ∃ k ≤ t.length, w = (encode (t.take k)).length := by
          constructor
          · rintro ⟨k, bound, same⟩
            cases k with
            | zero => exact absurd same start
            | succ k =>
                rw [List.take_succ_cons, encode_cons, List.length_append] at same
                exact ⟨k, Nat.le_of_succ_le_succ bound, by omega⟩
          · rintro ⟨k, bound, same⟩
            refine ⟨k + 1, Nat.succ_le_succ bound, ?_⟩
            rw [List.take_succ_cons, encode_cons, List.length_append, ← same]
            exact sum
        rw [shifted, sum]
        by_cases first : w = 0
        · rw [first]
          exact iff_of_true ⟨0, Nat.zero_le _, rfl⟩ (isInside_units here _)
        · rw [isInside_append _ _ (Nat.pos_of_ne_zero first)]
          exact ih later (by omega)

end UnicodeOffsets

end ConfluenceEditor
