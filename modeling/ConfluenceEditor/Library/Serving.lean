/-
Serving items in the order of their arrival.

Items arrive one after the other, wait, and are served or dropped. `Ordered` says of the items with a
property that the served ones, followed by the waiting ones, are in the order of arrival. It
survives an arrival, a drop, and the service of the first waiting item.
-/

import Mathlib.Data.List.Basic
import Mathlib.Tactic.Common

namespace Serving

variable {α : Type}

/-- The items that satisfy `p` were served in the order of their arrival, and the waiting ones are
next. -/
def Ordered (p : α → Bool) (arrived waiting served : List α) : Prop :=
  (served.filter p ++ waiting.filter p).Sublist (arrived.filter p)

variable {p : α → Bool} {arrived waiting waiting' served : List α} {x : α}

theorem Ordered.served_sublist (ordered : Ordered p arrived waiting served) :
    (served.filter p).Sublist (arrived.filter p) :=
  (List.sublist_append_left ..).trans ordered

/-- A new item waits behind the others. -/
theorem Ordered.arrive (ordered : Ordered p arrived waiting served) (x : α) :
    Ordered p (arrived ++ [x]) (waiting ++ [x]) served := by
  unfold Ordered at *
  rw [List.filter_append, List.filter_append, ← List.append_assoc]
  exact ordered.append (List.Sublist.refl _)

/-- A new item may also be turned away. -/
theorem Ordered.refuse (ordered : Ordered p arrived waiting served) (x : α) :
    Ordered p (arrived ++ [x]) waiting served := by
  unfold Ordered at *
  rw [List.filter_append]
  exact ordered.trans (List.sublist_append_left ..)

/-- Waiting items may be dropped. -/
theorem Ordered.drop (ordered : Ordered p arrived waiting served)
    (fewer : waiting'.Sublist waiting) : Ordered p arrived waiting' served :=
  ((List.Sublist.refl _).append (fewer.filter p)).trans ordered

/-- The first waiting item with the property is served. -/
theorem Ordered.serve_first [DecidableEq α] (ordered : Ordered p arrived waiting served)
    (first : waiting.find? p = some x) : Ordered p arrived (waiting.erase x) (served ++ [x]) := by
  obtain ⟨holds, before, after, rfl, earlier⟩ := List.find?_eq_some_iff_append.mp first
  have skipped : before.filter p = [] :=
    List.filter_eq_nil_iff.mpr fun y member => by simpa using earlier y member
  have absent : x ∉ before := fun member => by
    have := earlier x member
    simp [holds] at this
  unfold Ordered at *
  rw [List.erase_append_right _ absent, List.erase_cons_head, List.filter_append, List.filter_append,
    skipped, List.filter_cons_of_pos holds, List.filter_nil, List.nil_append, List.append_assoc]
  rwa [List.filter_append, skipped, List.filter_cons_of_pos holds, List.nil_append] at ordered

/-- Serving an item without the property. -/
theorem Ordered.serve_other (ordered : Ordered p arrived waiting served) (other : p x = false)
    (fewer : waiting'.Sublist waiting) : Ordered p arrived waiting' (served ++ [x]) := by
  have dropped := ordered.drop fewer
  unfold Ordered at *
  rwa [List.filter_append, List.filter_cons_of_neg (by simp [other]), List.filter_nil,
    List.append_nil]

end Serving
