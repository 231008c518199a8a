/-
Base64 with the alphabet for URLs, without padding.

Three bytes are four digits of six bits. The decoder reads both alphabets, skips every other character and
drops what does not fill a byte.
-/

import Mathlib.Tactic.Common

namespace Base64

def alphabet : List Char :=
  "ABCDEFGHIJKLMNOPQRSTUVWXYZabcdefghijklmnopqrstuvwxyz0123456789-_".toList

def digit (n : Nat) : Char := alphabet.getD n 'A'

/-- The value of a digit; `+` and `/` are those of the other alphabet. -/
def value? (c : Char) : Option Nat :=
  if c = '+' then some 62
  else if c = '/' then some 63
  else alphabet.findIdx? (· = c)

def encode : List UInt8 → List Char
  | [] => []
  | [a] => [digit (a.toNat / 4), digit (a.toNat % 4 * 16)]
  | [a, b] =>
      [digit (a.toNat / 4), digit (a.toNat % 4 * 16 + b.toNat / 16), digit (b.toNat % 16 * 4)]
  | a :: b :: c :: bytes =>
      digit (a.toNat / 4) :: digit (a.toNat % 4 * 16 + b.toNat / 16) ::
        digit (b.toNat % 16 * 4 + c.toNat / 64) :: digit (c.toNat % 64) :: encode bytes

/-- The bytes of digits of six bits. -/
def pack : List Nat → List UInt8
  | p :: q :: r :: s :: values =>
      UInt8.ofNat (p * 4 + q / 16) :: UInt8.ofNat (q % 16 * 16 + r / 4) ::
        UInt8.ofNat (r % 4 * 64 + s) :: pack values
  | [p, q, r] => [UInt8.ofNat (p * 4 + q / 16), UInt8.ofNat (q % 16 * 16 + r / 4)]
  | [p, q] => [UInt8.ofNat (p * 4 + q / 16)]
  | _ => []

def decode (text : List Char) : List UInt8 := pack (text.filterMap value?)

theorem value_digit {n : Nat} (small : n < 64) : value? (digit n) = some n :=
  (by decide +kernel : ∀ n < 64, value? (digit n) = some n) n small

theorem ofNat_eq {a : UInt8} {n : Nat} (same : n = a.toNat) : UInt8.ofNat n = a := by
  rw [same, UInt8.ofNat_toNat]

theorem decode_encode (bytes : List UInt8) : decode (encode bytes) = bytes := by
  rw [decode]
  induction bytes using encode.induct with
  | case1 => rfl
  | case2 a =>
      have a_lt := a.toNat_lt
      rw [encode, List.filterMap_cons_some (value_digit (by omega)),
        List.filterMap_cons_some (value_digit (by omega)), List.filterMap_nil, pack,
        ofNat_eq (a := a) (by omega)]
  | case3 a b =>
      have a_lt := a.toNat_lt
      have b_lt := b.toNat_lt
      rw [encode, List.filterMap_cons_some (value_digit (by omega)),
        List.filterMap_cons_some (value_digit (by omega)),
        List.filterMap_cons_some (value_digit (by omega)), List.filterMap_nil, pack,
        ofNat_eq (a := a) (by omega), ofNat_eq (a := b) (by omega)]
  | case4 a b c bytes ih =>
      have a_lt := a.toNat_lt
      have b_lt := b.toNat_lt
      have c_lt := c.toNat_lt
      rw [encode, List.filterMap_cons_some (value_digit (by omega)),
        List.filterMap_cons_some (value_digit (by omega)),
        List.filterMap_cons_some (value_digit (by omega)),
        List.filterMap_cons_some (value_digit (by omega)), pack, ih,
        ofNat_eq (a := a) (by omega), ofNat_eq (a := b) (by omega), ofNat_eq (a := c) (by omega)]

example : encode [0x66, 0x6f, 0x6f, 0x62] = "Zm9vYg".toList := by decide +kernel

end Base64
