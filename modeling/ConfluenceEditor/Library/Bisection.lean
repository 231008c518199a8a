/-
A binary search for a boundary of a test.

`search` narrows the interval of candidates until it is empty and returns the last index that failed
the test. That index fails and the one before it passes (`search_spec`), whatever the other indices
do; where failing is monotone, it is the first index that fails (`passes_below`). A test that throws
ends the search. `last` looks for the last index that passes, the other way round.
-/

import Mathlib.Tactic.Common
import Mathlib.Tactic.Linarith

namespace Bisection

variable {ε : Type}

/-- The candidates are the indices from `lo` to `hi`; `firstBad` failed the test last. -/
def search (test : Nat → Except ε Bool) (lo hi firstBad : Int) : Except ε Int :=
  if lo ≤ hi then
    match test ((lo + hi) / 2).toNat with
    | .error e => .error e
    | .ok true => search test ((lo + hi) / 2 + 1) hi firstBad
    | .ok false => search test lo ((lo + hi) / 2 - 1) ((lo + hi) / 2)
  else .ok firstBad
termination_by (hi + 1 - lo).toNat
decreasing_by all_goals omega

/-- What narrowing keeps: the index before the candidates passes, and the one behind them, or the
last candidate, fails. -/
structure Narrowed (test : Nat → Except ε Bool) (lo hi firstBad : Int) : Prop where
  start : 0 ≤ lo
  known : 0 ≤ firstBad
  ordered : lo ≤ hi + 1
  passes : lo = 0 ∨ test (lo - 1).toNat = .ok true
  fails : test firstBad.toNat = .ok false
  last : firstBad = hi + 1 ∨ firstBad = hi

variable {test : Nat → Except ε Bool} {lo hi firstBad : Int}

namespace Narrowed

theorem pass (narrowed : Narrowed test lo hi firstBad) (candidates : lo ≤ hi)
    (passed : test ((lo + hi) / 2).toNat = .ok true) :
    Narrowed test ((lo + hi) / 2 + 1) hi firstBad where
  start := by
    have := narrowed.start
    omega
  known := narrowed.known
  ordered := by omega
  passes := Or.inr (by rwa [Int.add_sub_cancel])
  fails := narrowed.fails
  last := narrowed.last

theorem fail (narrowed : Narrowed test lo hi firstBad) (candidates : lo ≤ hi)
    (failed : test ((lo + hi) / 2).toNat = .ok false) :
    Narrowed test lo ((lo + hi) / 2 - 1) ((lo + hi) / 2) where
  start := narrowed.start
  known := by
    have := narrowed.start
    omega
  ordered := by omega
  passes := narrowed.passes
  fails := failed
  last := Or.inl (by omega)

/-- Without a candidate left, the index that failed last comes right behind one that passes. -/
theorem finished (narrowed : Narrowed test lo hi firstBad) (empty : ¬ lo ≤ hi) :
    firstBad = 0 ∨ test (firstBad - 1).toNat = .ok true := by
  have ordered := narrowed.ordered
  have known := narrowed.known
  have behind : lo = hi + 1 := by omega
  rcases narrowed.last with same | same
  · rw [same, ← behind]
    exact narrowed.passes
  · -- the last candidate would both pass and fail
    rcases narrowed.passes with first | passed
    · omega
    · have here : lo - 1 = firstBad := by omega
      rw [here, narrowed.fails] at passed
      cases passed

end Narrowed

/-- The search ends, at an index that fails behind one that passes, or with an error of the test. -/
theorem search_spec (narrowed : Narrowed test lo hi firstBad) :
    (∃ k : Nat, search test lo hi firstBad = .ok k ∧ (k : Int) ≤ max hi firstBad ∧
        test k = .ok false ∧ (k = 0 ∨ test (k - 1) = .ok true)) ∨
      ∃ e, ∃ i : Nat, search test lo hi firstBad = .error e ∧ (i : Int) ≤ hi ∧ test i = .error e := by
  fun_induction search test lo hi firstBad with
  | case1 lo hi firstBad candidates e threw =>
      have := narrowed.start
      exact Or.inr ⟨e, _, rfl, by omega, threw⟩
  | case2 lo hi firstBad candidates passed ih => exact ih (narrowed.pass candidates passed)
  | case3 lo hi firstBad candidates failed ih =>
      rcases ih (narrowed.fail candidates failed) with ⟨k, found, inside, spec⟩ | ⟨e, i, threw, inside, bad⟩
      · exact Or.inl ⟨k, found, by omega, spec⟩
      · exact Or.inr ⟨e, i, threw, by omega, bad⟩
  | case4 lo hi firstBad empty =>
      have known := narrowed.known
      obtain ⟨k, rfl⟩ := Int.eq_ofNat_of_zero_le known
      refine Or.inl ⟨k, rfl, le_max_right .., narrowed.fails, ?_⟩
      rcases narrowed.finished empty with zero | passed
      · exact Or.inl (by omega)
      · have same : ((k : Int) - 1).toNat = k - 1 := by omega
        exact Or.inr (same ▸ passed)

/-- Where failing is monotone, nothing fails before an index that passes. -/
theorem passes_below {k n : Nat} (monotone : ∀ i j, i ≤ j → j < n → test i = .ok false →
    test j = .ok false) (inside : k < n) (passed : k = 0 ∨ test (k - 1) = .ok true) {i : Nat}
    (before : i < k) : test i ≠ .ok false := by
  intro failed
  rcases passed with rfl | passed
  · omega
  · rw [monotone i (k - 1) (by omega) (by omega) failed] at passed
    cases passed

/-! ### The last index that passes -/

/-- The indices from `lo` to `hi` are the candidates, and `lo` passes the test. -/
def last (test : Nat → Bool) (lo hi : Nat) : Nat :=
  if lo < hi then
    if test ((lo + hi + 1) / 2) then last test ((lo + hi + 1) / 2) hi
    else last test lo ((lo + hi + 1) / 2 - 1)
  else lo
termination_by hi - lo
decreasing_by all_goals omega

/-- The search ends at an index that passes, right before one that does not or at the end. -/
theorem last_spec (test : Nat → Bool) {lo hi : Nat} (ordered : lo ≤ hi) (passes : test lo = true) :
    last test lo hi ≤ hi ∧ test (last test lo hi) = true ∧
      (last test lo hi < hi → test (last test lo hi + 1) = false) := by
  have kept : ∀ end_, hi ≤ end_ → (hi < end_ → test (hi + 1) = false) →
      last test lo hi ≤ end_ ∧ test (last test lo hi) = true ∧
        (last test lo hi < end_ → test (last test lo hi + 1) = false) := by
    fun_induction last test lo hi with
    | case1 lo hi more passed ih => exact ih (by omega) passed
    | case2 lo hi more failed ih =>
        intro end_ inside _
        refine ih (by omega) passes end_ (by omega) fun _ => ?_
        have mid : (lo + hi + 1) / 2 - 1 + 1 = (lo + hi + 1) / 2 := by omega
        rw [mid]
        exact Bool.eq_false_iff.mpr failed
    | case3 lo hi empty =>
        intro end_ inside behind
        have same : lo = hi := by omega
        rw [same] at passes ⊢
        exact ⟨inside, passes, behind⟩
  exact kept hi (Nat.le_refl hi) fun beyond => absurd beyond (Nat.lt_irrefl hi)

end Bisection
