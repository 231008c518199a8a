/-
Numbered slots.

A list that only grows, and whose entries are replaced in place, numbers its entries: what stands in
a slot after a change either stood there before or is the entry that was written.
-/

import Mathlib.Data.List.Basic
import Mathlib.Tactic.Common

namespace Slots

variable {α : Type} {slots : List α} {x y : α} {i j : Nat}

/-- Writing one slot leaves the others alone. -/
theorem of_set (found : (slots.set i x)[j]? = some y) :
    (j = i ∧ y = x) ∨ (j ≠ i ∧ slots[j]? = some y) := by
  rw [List.getElem?_set] at found
  split_ifs at found with here bound
  · exact Or.inl ⟨here.symm, (Option.some.inj found).symm⟩
  · exact Or.inr ⟨fun same => here same.symm, found⟩

/-- A new slot comes after all others. -/
theorem of_append (found : (slots ++ [x])[j]? = some y) :
    (j = slots.length ∧ y = x) ∨ (j < slots.length ∧ slots[j]? = some y) := by
  by_cases bound : j < slots.length
  · rw [List.getElem?_append_left bound] at found
    exact Or.inr ⟨bound, found⟩
  · rw [List.getElem?_append_right (Nat.le_of_not_lt bound), List.getElem?_singleton] at found
    split_ifs at found with last
    exact Or.inl ⟨by omega, (Option.some.inj found).symm⟩

end Slots
