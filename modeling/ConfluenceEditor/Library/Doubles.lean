/-
Floating-point numbers that hold natural numbers.

A number is representable when it is a significand of 53 bits times a power of two; the numbers here stay
far from the ends of the range of exponents. `Nearest` is what a rounding to nearest promises, whichever
way it breaks ties: a representable number is not changed (`Nearest.eq`), and no representable bound is
crossed (`Nearest.le`). `round` rounds a natural number, ties to even (`nearest_round`), so that `add` and
`mul` are the sum and the product of two numbers that hold natural numbers. A quotient by a power of two
is exact (`Representable.scale`).
-/

import Mathlib.Algebra.Order.Field.Power
import Mathlib.Data.Nat.Log
import Mathlib.Data.Rat.Floor
import Mathlib.Tactic.Linarith
import Mathlib.Tactic.Positivity
import Mathlib.Tactic.Ring

namespace Doubles

/-- A significand of 53 bits times a power of two. -/
def Representable (x : ℚ) : Prop := ∃ (m : ℕ) (e : ℤ), m < 2 ^ 53 ∧ x = m * 2 ^ e

/-- `y` is representable, and no other representable number is nearer to `x`. -/
def Nearest (x y : ℚ) : Prop := Representable y ∧ ∀ d, Representable d → |x - y| ≤ |x - d|

variable {x y d : ℚ}

theorem representable_natCast {n : ℕ} (small : n < 2 ^ 53) : Representable n :=
  ⟨n, 0, small, by rw [zpow_zero, mul_one]⟩

theorem representable_pow (e : ℤ) : Representable (2 ^ e) :=
  ⟨1, e, by decide, by rw [Nat.cast_one, one_mul]⟩

/-- Only the exponent changes. -/
theorem Representable.scale (representable : Representable x) (k : ℤ) : Representable (x * 2 ^ k) := by
  have ⟨m, e, small, same⟩ := representable
  refine ⟨m, e + k, small, ?_⟩
  rw [same, mul_assoc, zpow_add₀ two_ne_zero]

theorem Nearest.eq (nearest : Nearest x y) (representable : Representable x) : y = x := by
  have close := nearest.2 x representable
  rw [sub_self, abs_zero] at close
  exact (sub_eq_zero.mp (abs_nonpos_iff.mp close)).symm

/-- A representable bound is not crossed. -/
theorem Nearest.le (nearest : Nearest x y) (representable : Representable d) (below : d ≤ x) :
    d ≤ y := by
  by_contra crossed
  have less : y < d := not_le.mp crossed
  have close := nearest.2 d representable
  rw [abs_of_nonneg (sub_nonneg.mpr below), abs_of_nonneg (by linarith)] at close
  linarith

/-! ### Rounding a natural number -/

/-- The unit in the last place of a number with more than 53 bits. -/
def unit (n : ℕ) : ℕ := 2 ^ (n.log2 - 52)

/-- Round to nearest, ties to even. -/
def round (n : ℕ) : ℕ :=
  if n < 2 ^ 53 then n
  else if 2 * (n % unit n) < unit n ∨ 2 * (n % unit n) = unit n ∧ n / unit n % 2 = 0 then
    n / unit n * unit n
  else (n / unit n + 1) * unit n

def add (a b : ℕ) : ℕ := round (a + b)

def mul (a b : ℕ) : ℕ := round (a * b)

/-- The significand of a number with more than 53 bits, cut off. -/
theorem significand {n : ℕ} (large : 2 ^ 53 ≤ n) :
    2 ^ 52 ≤ n / unit n ∧ n / unit n < 2 ^ 53 := by
  have nonzero : n ≠ 0 := by omega
  have least : 53 ≤ n.log2 := (Nat.le_log2 nonzero).mpr large
  have split : n.log2 = 52 + (n.log2 - 52) := by omega
  constructor
  · rw [unit, Nat.le_div_iff_mul_le (Nat.two_pow_pos _), ← pow_add, ← split]
    exact Nat.log2_self_le nonzero
  · rw [unit, Nat.div_lt_iff_lt_mul (Nat.two_pow_pos _), ← pow_add]
    have bound : n < 2 ^ (n.log2 + 1) := Nat.lt_log2_self
    have same : n.log2 + 1 = 53 + (n.log2 - 52) := by omega
    rwa [← same]

/-- From the first number with this unit on, what is representable is a multiple of the unit. -/
theorem multiple_of_le {e : ℕ} (representable : Representable d) (large : 2 ^ (52 + e) ≤ d) :
    ∃ k : ℕ, d = k * 2 ^ e := by
  have ⟨m, f, small, same⟩ := representable
  have high : (e : ℤ) ≤ f := by
    by_contra low
    have below : f ≤ (e : ℤ) - 1 := by omega
    have power : (2 : ℚ) ^ f ≤ 2 ^ ((e : ℤ) - 1) := zpow_le_zpow_right₀ one_le_two below
    have bound : (m : ℚ) < 2 ^ 53 := by exact_mod_cast small
    have positive : (0 : ℚ) < 2 ^ ((e : ℤ) - 1) := zpow_pos two_pos _
    have less : d < 2 ^ 53 * 2 ^ ((e : ℤ) - 1) := by
      rw [same]
      exact lt_of_le_of_lt (mul_le_mul_of_nonneg_left power (Nat.cast_nonneg m))
        (mul_lt_mul_of_pos_right bound positive)
    have whole : (2 : ℚ) ^ 53 * 2 ^ ((e : ℤ) - 1) = 2 ^ (52 + e) := by
      rw [← zpow_natCast, ← zpow_natCast, ← zpow_add₀ two_ne_zero]
      congr 1
      push_cast
      ring
    rw [whole] at less
    exact absurd large (not_le.mpr less)
  have ⟨g, exponent⟩ := Int.eq_ofNat_of_zero_le (sub_nonneg.mpr high)
  refine ⟨m * 2 ^ g, ?_⟩
  have sum : f = (g : ℤ) + e := by omega
  rw [same, sum, zpow_add₀ two_ne_zero, zpow_natCast, zpow_natCast, Nat.cast_mul, Nat.cast_pow,
    Nat.cast_ofNat, mul_assoc]

/-- The distance to a representable number is that to one of the two neighbours at least. -/
theorem distance {n : ℕ} (large : 2 ^ 53 ≤ n) (representable : Representable d) :
    ((n % unit n : ℕ) : ℚ) ≤ |(n : ℚ) - d| ∨ ((unit n - n % unit n : ℕ) : ℚ) ≤ |(n : ℚ) - d| := by
  have ⟨least, _⟩ := significand large
  have inside : n % unit n < unit n := Nat.mod_lt _ (Nat.two_pow_pos _)
  have whole : ((n / unit n * unit n + n % unit n : ℕ) : ℚ) = n := by rw [Nat.div_add_mod']
  rw [Nat.cast_sub (Nat.le_of_lt inside)]
  push_cast at whole ⊢
  by_cases small : d < 2 ^ (52 + (n.log2 - 52))
  · refine Or.inl (le_trans ?_ (le_abs_self _))
    have scaled : ((2 ^ 52 * unit n : ℕ) : ℚ) ≤ ((n / unit n * unit n : ℕ) : ℚ) :=
      Nat.cast_le.mpr (Nat.mul_le_mul_right _ least)
    have edge : ((2 ^ 52 * unit n : ℕ) : ℚ) = 2 ^ (52 + (n.log2 - 52)) := by
      rw [unit, ← pow_add, Nat.cast_pow, Nat.cast_ofNat]
    rw [edge] at scaled
    push_cast at scaled
    linarith
  · have ⟨k, same⟩ := multiple_of_le representable (not_lt.mp small)
    have multiple : d = ((k * unit n : ℕ) : ℚ) := by
      rw [same, unit, Nat.cast_mul, Nat.cast_pow, Nat.cast_ofNat]
    rcases Nat.lt_or_ge (n / unit n) k with above | below
    · have scaled : (((n / unit n + 1) * unit n : ℕ) : ℚ) ≤ ((k * unit n : ℕ) : ℚ) :=
        Nat.cast_le.mpr (Nat.mul_le_mul_right _ above)
      refine Or.inr (le_trans ?_ (neg_le_abs _))
      rw [← multiple] at scaled
      push_cast at scaled
      linarith
    · have scaled : ((k * unit n : ℕ) : ℚ) ≤ ((n / unit n * unit n : ℕ) : ℚ) :=
        Nat.cast_le.mpr (Nat.mul_le_mul_right _ below)
      refine Or.inl (le_trans ?_ (le_abs_self _))
      rw [← multiple] at scaled
      push_cast at scaled
      linarith

/-- A multiple of the unit with a significand of 53 bits, or the next power of two. -/
theorem representable_multiple {c e : ℕ} (small : c ≤ 2 ^ 53) : Representable ((c * 2 ^ e : ℕ) : ℚ) := by
  rw [Nat.cast_mul, Nat.cast_pow, Nat.cast_ofNat, ← zpow_natCast]
  rcases Nat.lt_or_eq_of_le small with less | full
  · exact (representable_natCast less).scale e
  · rw [full, Nat.cast_pow, Nat.cast_ofNat, ← zpow_natCast]
    exact (representable_pow _).scale e

/-- The rounded number is the nearest one. -/
theorem nearest_round (n : ℕ) : Nearest n (round n : ℕ) := by
  rw [round]
  by_cases small : n < 2 ^ 53
  · rw [if_pos small]
    refine ⟨representable_natCast small, fun d _ => ?_⟩
    rw [sub_self, abs_zero]
    exact abs_nonneg _
  · rw [if_neg small]
    have large : 2 ^ 53 ≤ n := Nat.le_of_not_lt small
    have ⟨_, most⟩ := significand large
    have inside : n % unit n < unit n := Nat.mod_lt _ (Nat.two_pow_pos _)
    have whole : ((n / unit n * unit n + n % unit n : ℕ) : ℚ) = n := by rw [Nat.div_add_mod']
    have above : (((n / unit n + 1) * unit n : ℕ) : ℚ) =
        n + ((unit n - n % unit n : ℕ) : ℚ) := by
      rw [Nat.cast_sub (Nat.le_of_lt inside)]
      push_cast at whole ⊢
      linarith
    by_cases down : 2 * (n % unit n) < unit n ∨ 2 * (n % unit n) = unit n ∧ n / unit n % 2 = 0
    · rw [if_pos down]
      refine ⟨representable_multiple (Nat.le_of_lt most), fun d representable => ?_⟩
      have far : ((n % unit n : ℕ) : ℚ) ≤ ((unit n - n % unit n : ℕ) : ℚ) :=
        Nat.cast_le.mpr (by omega)
      have near : |(n : ℚ) - ((n / unit n * unit n : ℕ) : ℚ)| = ((n % unit n : ℕ) : ℚ) := by
        rw [← whole, Nat.cast_add, add_sub_cancel_left, Nat.abs_cast]
      rw [near]
      exact (distance large representable).elim id far.trans
    · rw [if_neg down]
      refine ⟨representable_multiple most, fun d representable => ?_⟩
      have far : ((unit n - n % unit n : ℕ) : ℚ) ≤ ((n % unit n : ℕ) : ℚ) :=
        Nat.cast_le.mpr (by omega)
      have near : |(n : ℚ) - (((n / unit n + 1) * unit n : ℕ) : ℚ)| =
          ((unit n - n % unit n : ℕ) : ℚ) := by
        rw [above, sub_add_cancel_left, abs_neg, Nat.abs_cast]
      rw [near]
      exact (distance large representable).elim far.trans id

theorem round_eq {n : ℕ} (representable : Representable n) : round n = n :=
  Nat.cast_injective ((nearest_round n).eq representable)

theorem le_round {n b : ℕ} (representable : Representable b) (below : b ≤ n) : b ≤ round n :=
  Nat.cast_le.mp ((nearest_round n).le representable (Nat.cast_le.mpr below))

example : round (2 ^ 53 + 1) = 2 ^ 53 ∧ round (2 ^ 53 + 3) = 2 ^ 53 + 4 := by decide +kernel

end Doubles
