/-
Strings of UTF-16 code units.

A string is a list of code units, a text a list of code points. `encode` writes a text as a string, a
code point above the 16-bit range as a pair of surrogates; `codePoints` is the iteration of a string,
which joins a high surrogate with a low one behind it. Iterating what was written gives the text back
when all of it are Unicode scalars (`codePoints_encode`), and writing what was iterated gives every
string back (`encode_codePoints`), unpaired surrogates included.
-/

import Mathlib.Data.List.Basic

namespace Utf16

/-- The first unit of a pair. -/
def isHigh (u : Nat) : Bool := 0xd800 ≤ u && u ≤ 0xdbff

/-- The second unit of a pair. -/
def isLow (u : Nat) : Bool := 0xdc00 ≤ u && u ≤ 0xdfff

/-- The code point of a pair. -/
def join (high low : Nat) : Nat := 0x10000 + (high - 0xd800) * 0x400 + (low - 0xdc00)

/-- The code units of one code point. -/
def units (v : Nat) : List Nat :=
  if v < 0x10000 then [v] else [0xd800 + (v - 0x10000) / 0x400, 0xdc00 + (v - 0x10000) % 0x400]

def encode (text : List Nat) : List Nat := text.flatMap units

def codePoints : List Nat → List Nat
  | [] => []
  | [u] => [u]
  | u :: w :: rest =>
      if isHigh u && isLow w then join u w :: codePoints rest else u :: codePoints (w :: rest)

/-! ### Single code points -/

theorem isHigh_iff {u : Nat} : isHigh u = true ↔ 0xd800 ≤ u ∧ u ≤ 0xdbff := by
  rw [isHigh, Bool.and_eq_true, decide_eq_true_eq, decide_eq_true_eq]

theorem isLow_iff {u : Nat} : isLow u = true ↔ 0xdc00 ≤ u ∧ u ≤ 0xdfff := by
  rw [isLow, Bool.and_eq_true, decide_eq_true_eq, decide_eq_true_eq]

theorem scalar_iff {v : Nat} : v.isValidChar ↔ v < 0xd800 ∨ 0xdfff < v ∧ v < 0x110000 := Iff.rfl

theorem units_of_lt {v : Nat} (small : v < 0x10000) : units v = [v] := if_pos small

theorem units_of_le {v : Nat} (large : 0x10000 ≤ v) :
    units v = [0xd800 + (v - 0x10000) / 0x400, 0xdc00 + (v - 0x10000) % 0x400] :=
  if_neg (Nat.not_lt.mpr large)

/-- A code point has one unit or two. -/
theorem length_units (v : Nat) : (units v).length = if v < 0x10000 then 1 else 2 := by
  by_cases small : v < 0x10000
  · rw [units_of_lt small, if_pos small]
    rfl
  · rw [units_of_le (Nat.not_lt.mp small), if_neg small]
    rfl

theorem length_units_pos (v : Nat) : 0 < (units v).length := by
  rw [length_units]
  split <;> decide

theorem units_join {high low : Nat} (first : isHigh high = true) (second : isLow low = true) :
    units (join high low) = [high, low] := by
  have ⟨atLeast, atMost⟩ := isHigh_iff.mp first
  have ⟨atLeast', atMost'⟩ := isLow_iff.mp second
  have large : 0x10000 ≤ join high low := by
    unfold join
    omega
  have quotient : (join high low - 0x10000) / 0x400 = high - 0xd800 := by
    unfold join
    omega
  have remainder : (join high low - 0x10000) % 0x400 = low - 0xdc00 := by
    unfold join
    omega
  rw [units_of_le large, quotient, remainder, Nat.add_sub_cancel' atLeast,
    Nat.add_sub_cancel' atLeast']

/-- The iteration takes the units of a scalar as one, whatever stands behind them. -/
theorem codePoints_units {v : Nat} (scalar : v.isValidChar) (rest : List Nat) :
    codePoints (units v ++ rest) = v :: codePoints rest := by
  rw [scalar_iff] at scalar
  by_cases small : v < 0x10000
  · have single : isHigh v = false := by
      rw [← Bool.not_eq_true, isHigh_iff]
      omega
    rw [units_of_lt small]
    cases rest with
    | nil => rfl
    | cons w rest =>
        show (if isHigh v && isLow w then _ else _) = _
        rw [single, Bool.false_and, if_neg Bool.false_ne_true]
  · have first : isHigh (0xd800 + (v - 0x10000) / 0x400) = true := by
      rw [isHigh_iff]
      omega
    have second : isLow (0xdc00 + (v - 0x10000) % 0x400) = true := by
      rw [isLow_iff]
      omega
    have whole : join (0xd800 + (v - 0x10000) / 0x400) (0xdc00 + (v - 0x10000) % 0x400) = v := by
      unfold join
      omega
    rw [units_of_le (Nat.not_lt.mp small)]
    show (if _ then _ else _) = _
    rw [first, second, Bool.and_self, if_pos rfl, whole]
    rfl

/-! ### Texts -/

@[simp] theorem encode_nil : encode [] = [] := rfl

@[simp] theorem encode_cons (v : Nat) (text : List Nat) :
    encode (v :: text) = units v ++ encode text := rfl

@[simp] theorem encode_append (text text' : List Nat) :
    encode (text ++ text') = encode text ++ encode text' := List.flatMap_append

@[simp] theorem codePoints_nil : codePoints [] = [] := codePoints.eq_1

theorem codePoints_encode_append {text : List Nat} (scalar : ∀ v ∈ text, v.isValidChar)
    (rest : List Nat) : codePoints (encode text ++ rest) = text ++ codePoints rest := by
  induction text with
  | nil => rfl
  | cons v text ih =>
      have ⟨here, later⟩ := List.forall_mem_cons.mp scalar
      rw [encode_cons, List.append_assoc, codePoints_units here, ih later, List.cons_append]

theorem codePoints_encode {text : List Nat} (scalar : ∀ v ∈ text, v.isValidChar) :
    codePoints (encode text) = text := by
  have whole := codePoints_encode_append scalar []
  rwa [codePoints_nil, List.append_nil, List.append_nil] at whole

/-- Two texts of scalars with the same string are the same. -/
theorem encode_injective {text text' : List Nat} (scalar : ∀ v ∈ text, v.isValidChar)
    (scalar' : ∀ v ∈ text', v.isValidChar) (same : encode text = encode text') : text = text' := by
  rw [← codePoints_encode scalar, same, codePoints_encode scalar']

/-- The code points of a string spell it. -/
theorem encode_codePoints {string : List Nat} (small : ∀ u ∈ string, u < 0x10000) :
    encode (codePoints string) = string := by
  fun_induction codePoints string with
  | case1 => rfl
  | case2 u => rw [encode_cons, units_of_lt (small u List.mem_cons_self)]; rfl
  | case3 u w rest pair ih =>
      rw [Bool.and_eq_true] at pair
      have later := List.forall_mem_cons.mp (List.forall_mem_cons.mp small).2
      rw [encode_cons, units_join pair.1 pair.2, ih later.2]
      rfl
  | case4 u w rest single ih =>
      have ⟨here, later⟩ := List.forall_mem_cons.mp small
      rw [encode_cons, units_of_lt here, ih later]
      rfl

/-- A cut between two code points is a cut of the string. -/
theorem codePoints_split {string a b : List Nat} (split : codePoints string = a ++ b) :
    ∃ first second, string = first ++ second ∧ codePoints first = a ∧ codePoints second = b := by
  fun_induction codePoints string generalizing a with
  | case1 =>
      have ⟨front, behind⟩ := List.append_eq_nil_iff.mp split.symm
      exact ⟨[], [], rfl, front.symm, behind.symm⟩
  | case2 u =>
      cases a with
      | nil => exact ⟨[], [u], rfl, rfl, split⟩
      | cons v a =>
          have ⟨same, rest⟩ := List.cons.inj split
          have ⟨front, behind⟩ := List.append_eq_nil_iff.mp rest.symm
          rw [← same, front, behind]
          exact ⟨[u], [], rfl, rfl, rfl⟩
  | case3 u w rest pair ih =>
      cases a with
      | nil =>
          refine ⟨[], u :: w :: rest, rfl, rfl, ?_⟩
          show (if isHigh u && isLow w then _ else _) = _
          rw [if_pos pair]
          exact split
      | cons v a =>
          have ⟨same, later⟩ := List.cons.inj split
          have ⟨first, second, whole, front, behind⟩ := ih later
          refine ⟨u :: w :: first, second, by rw [whole]; rfl, ?_, behind⟩
          show (if isHigh u && isLow w then _ else _) = _
          rw [if_pos pair, front, same]
  | case4 u w rest single ih =>
      cases a with
      | nil =>
          refine ⟨[], u :: w :: rest, rfl, rfl, ?_⟩
          show (if isHigh u && isLow w then _ else _) = _
          rw [if_neg single]
          exact split
      | cons v a =>
          have ⟨same, later⟩ := List.cons.inj split
          have ⟨first, second, whole, front, behind⟩ := ih later
          refine ⟨u :: first, second, by rw [whole]; rfl, ?_, behind⟩
          cases first with
          | nil => rw [← same, ← front]; rfl
          | cons w' first =>
              have next : w = w' := (List.cons.inj whole).1
              show (if isHigh u && isLow w' then _ else _) = _
              rw [← next, if_neg single, next, front, same]

theorem join_le {high low : Nat} (first : isHigh high = true) (second : isLow low = true) :
    join high low ≤ 0x10ffff := by
  have above := isHigh_iff.mp first
  have below := isLow_iff.mp second
  unfold join
  omega

/-- A code point is at most the last one of Unicode. -/
theorem le_of_mem_codePoints {string : List Nat} (small : ∀ u ∈ string, u < 0x10000) :
    ∀ v ∈ codePoints string, v ≤ 0x10ffff := by
  fun_induction codePoints string with
  | case1 => exact List.forall_mem_nil _
  | case2 u =>
      have here : u < 0x10000 := small u List.mem_cons_self
      refine List.forall_mem_singleton.mpr ?_
      omega
  | case3 u w rest pair ih =>
      rw [Bool.and_eq_true] at pair
      have later := List.forall_mem_cons.mp (List.forall_mem_cons.mp small).2
      exact List.forall_mem_cons.mpr ⟨join_le pair.1 pair.2, ih later.2⟩
  | case4 u w rest single ih =>
      have ⟨here, later⟩ := List.forall_mem_cons.mp small
      refine List.forall_mem_cons.mpr ⟨?_, ih later⟩
      omega

end Utf16
