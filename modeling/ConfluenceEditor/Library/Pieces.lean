/-
A list that is kept in pieces.

`cut` divides a list into pieces of a bounded length. `splice` puts members in the place of others; a
splice inside one piece is a splice of the whole list (`flatten_splice`).
-/

import Mathlib.Data.List.Basic
import Mathlib.Tactic.Common

namespace Pieces

variable {α : Type} {n : Nat} {positive : 0 < n}

/-- Pieces of `n` members each, and a shorter one at the end. -/
def cut (n : Nat) (positive : 0 < n) (l : List α) : List (List α) :=
  if l = [] then [] else l.take n :: cut n positive (l.drop n)
termination_by l.length
decreasing_by
  rename_i nonempty
  have some := List.length_pos_iff.mpr nonempty
  rw [List.length_drop]
  omega

theorem cut_nil : cut n positive ([] : List α) = [] := by
  rw [cut, if_pos rfl]

theorem cut_of_ne_nil {l : List α} (nonempty : l ≠ []) :
    cut n positive l = l.take n :: cut n positive (l.drop n) := by
  rw [cut, if_neg nonempty]

@[simp] theorem flatten_cut (l : List α) : (cut n positive l).flatten = l := by
  fun_induction cut n positive l with
  | case1 => rfl
  | case2 l nonempty ih => rw [List.flatten_cons, ih, List.take_append_drop]

/-- No piece is empty or too long. -/
theorem length_of_mem_cut {l piece : List α} (member : piece ∈ cut n positive l) :
    piece ≠ [] ∧ piece.length ≤ n := by
  fun_induction cut n positive l with
  | case1 => cases member
  | case2 l nonempty ih =>
      rcases List.mem_cons.mp member with same | later
      · rw [same]
        refine ⟨fun empty => ?_, List.length_take_le n l⟩
        rcases List.take_eq_nil_iff.mp empty with zero | short
        · omega
        · exact nonempty short
      · exact ih later

theorem cut_map {β : Type} (f : α → β) (l : List α) :
    cut n positive (l.map f) = (cut n positive l).map (List.map f) := by
  fun_induction cut n positive l with
  | case1 => exact cut_nil
  | case2 l nonempty ih =>
      rw [cut_of_ne_nil fun empty => nonempty (List.map_eq_nil_iff.mp empty), ← List.map_take,
        ← List.map_drop, ih, List.map_cons]

/-! ### Splices -/

variable {before after : List (List α)} {piece : List α} {k d : Nat}

theorem take_flatten (inside : k ≤ piece.length) :
    (before ++ piece :: after).flatten.take (before.flatten.length + k) =
      before.flatten ++ piece.take k := by
  rw [List.flatten_append, List.flatten_cons, List.take_length_add_append,
    List.take_append_of_le_length inside]

theorem drop_flatten (inside : k ≤ piece.length) :
    (before ++ piece :: after).flatten.drop (before.flatten.length + k) =
      piece.drop k ++ after.flatten := by
  rw [List.flatten_append, List.flatten_cons, List.drop_length_add_append,
    List.drop_append_of_le_length inside]

/-- `count` members from `start` on give way to `inserted`. -/
def splice (start count : Nat) (inserted l : List α) : List α :=
  l.take start ++ inserted ++ l.drop (start + count)

/-- A splice inside one piece. -/
theorem flatten_splice (inside : k + d ≤ piece.length) (inserted : List α) :
    (before ++ splice k d inserted piece :: after).flatten =
      splice (before.flatten.length + k) d inserted (before ++ piece :: after).flatten := by
  rw [splice, splice, take_flatten (Nat.le_trans (Nat.le_add_right k d) inside), Nat.add_assoc,
    drop_flatten inside, List.flatten_append, List.flatten_cons]
  simp only [List.append_assoc]

theorem splice_zero (start : Nat) (l : List α) : splice start 0 [] l = l := by
  rw [splice, List.append_nil, Nat.add_zero, List.take_append_drop]

/-- What stands behind a deletion is deleted in its turn. -/
theorem splice_splice {start : Nat} {l : List α} (inside : start ≤ l.length) (count more : Nat) :
    splice start more [] (splice start count [] l) = splice start (count + more) [] l := by
  have length : (l.take start).length = start := List.length_take_of_le inside
  simp only [splice, List.append_nil]
  rw [List.take_left' length, List.drop_append, List.drop_of_length_le (by omega), length,
    Nat.add_sub_cancel_left, List.drop_drop, List.nil_append, Nat.add_assoc]

/-- An insertion where something was deleted. -/
theorem splice_insert {start : Nat} {l : List α} (inside : start ≤ l.length) (count : Nat)
    (inserted : List α) :
    splice start 0 inserted (splice start count [] l) = splice start count inserted l := by
  have length : (l.take start).length = start := List.length_take_of_le inside
  rw [splice, splice, splice, List.append_nil, Nat.add_zero, List.take_left' length,
    List.drop_left' length]

theorem length_splice_zero {start : Nat} {l : List α} (inside : start ≤ l.length)
    (inserted : List α) : (splice start 0 inserted l).length = l.length + inserted.length := by
  rw [splice, List.length_append, List.length_append, List.length_take, List.length_drop]
  omega

theorem length_splice {start count : Nat} {l : List α} (inside : start + count ≤ l.length) :
    (splice start count [] l).length + count = l.length := by
  rw [splice, List.append_nil, List.length_append, List.length_take, List.length_drop]
  omega

end Pieces
