/-
Sliding windows over a list of times.

`window w t times` are the times in the half-open window from `t - w` to `t`. In a list where every time
came last and found fewer than `max` times in the window that ends at it (`Admitted`), no window at all
holds more than `max` (`Admitted.length_window_le`): the last time in a window has all the others in the
window that ends at it.
-/

import Mathlib.Algebra.Order.Group.Defs
import Mathlib.Algebra.Order.Group.Unbundled.Basic
import Mathlib.Data.List.Basic
import Mathlib.Tactic.Common

namespace SlidingWindow

variable {α : Type} [AddCommGroup α] [LinearOrder α] {w t : α} {max : Nat} {times : List α}

/-- The times after `t - w`, up to and with `t`. -/
def window (w t : α) (times : List α) : List α :=
  times.filter fun x => decide (t - w < x) && decide (x ≤ t)

theorem mem_window {x : α} : x ∈ window w t times ↔ x ∈ times ∧ t - w < x ∧ x ≤ t := by
  rw [window, List.mem_filter, Bool.and_eq_true, decide_eq_true_iff, decide_eq_true_iff]

theorem window_concat (times : List α) (x : α) :
    window w t (times ++ [x]) =
      window w t times ++ if t - w < x ∧ x ≤ t then [x] else [] := by
  rw [window, List.filter_append]
  apply congrArg (window w t times ++ ·)
  by_cases inside : t - w < x ∧ x ≤ t
  · rw [if_pos inside]
    exact List.filter_eq_self.mpr fun y member => by
      rw [List.mem_singleton.mp member, decide_eq_true inside.1, decide_eq_true inside.2]
      rfl
  · rw [if_neg inside]
    refine List.filter_eq_nil_iff.mpr fun y member here => inside ?_
    rw [List.mem_singleton.mp member, Bool.and_eq_true] at here
    exact ⟨of_decide_eq_true here.1, of_decide_eq_true here.2⟩

/-- The window that ends at the last time is what is not yet over. -/
theorem window_eq_filter (last : ∀ x ∈ times, x ≤ t) :
    window w t times = times.filter fun x => decide (t - w < x) := by
  apply List.filter_congr
  intro x member
  rw [decide_eq_true (last x member), Bool.and_true]

/-- Every time came last and found fewer than `max` others in its window. -/
inductive Admitted (w : α) (max : Nat) : List α → Prop where
  | nil : Admitted w max []
  | concat {times : List α} {x : α} (admitted : Admitted w max times) (last : ∀ y ∈ times, y ≤ x)
      (room : (window w x times).length < max) : Admitted w max (times ++ [x])

variable [IsOrderedAddMonoid α]

/-- A later end leaves less of the times that came before. -/
theorem length_window_le_of_le {s : α} (last : ∀ y ∈ times, y ≤ s) (later : s ≤ t) :
    (window w t times).length ≤ (window w s times).length := by
  rw [window_eq_filter last, window_eq_filter fun y member => (last y member).trans later]
  apply List.Sublist.length_le
  apply List.monotone_filter_right
  intro x here
  exact decide_eq_true ((sub_le_sub_right later w).trans_lt (of_decide_eq_true here))

theorem Admitted.length_window_le (admitted : Admitted w max times) (t : α) :
    (window w t times).length ≤ max := by
  induction admitted with
  | nil => exact Nat.zero_le max
  | concat admitted last room ih =>
      rename_i times x
      rw [window_concat, List.length_append]
      by_cases inside : t - w < x ∧ x ≤ t
      · have fewer := length_window_le_of_le (w := w) last inside.2
        rw [if_pos inside]
        exact Nat.lt_of_le_of_lt fewer room
      · rw [if_neg inside]
        exact ih

end SlidingWindow
