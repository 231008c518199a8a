/-
Maps that remember the order of insertion, as lists of entries that know their key.

Setting a key that is there replaces its entry in place; a new key goes to the end. No two entries of
a map have the same key, so membership says all that there is to say about the entries (`mem_set`,
`mem_delete`) and about what is looked up (`get_eq_some`).
-/

import Mathlib.Data.List.Basic
import Mathlib.Data.List.Nodup
import Mathlib.Tactic.Common

structure Keyed {α κ : Type} (key : α → κ) where
  entries : List α
  distinct : (entries.map key).Nodup

namespace Keyed

variable {α κ : Type} {key : α → κ}

instance : Membership α (Keyed key) := ⟨fun m y => y ∈ m.entries⟩

def empty : Keyed key := ⟨[], List.nodup_nil⟩

theorem mem_def {m : Keyed key} {y : α} : y ∈ m ↔ y ∈ m.entries := Iff.rfl

theorem not_mem_empty {y : α} : y ∉ (empty : Keyed key) := List.not_mem_nil

theorem eq_of_key {m : Keyed key} {x y : α} (here : x ∈ m) (there : y ∈ m)
    (same : key x = key y) : x = y :=
  List.inj_on_of_nodup_map m.distinct here there same

variable [DecidableEq κ]

def get (m : Keyed key) (k : κ) : Option α := m.entries.find? fun y => key y = k

/-- The entries with the one of `x`'s key replaced, or with `x` behind them. -/
def setEntries (key : α → κ) (entries : List α) (x : α) : List α :=
  if key x ∈ entries.map key then entries.map fun y => if key y = key x then x else y
  else entries ++ [x]

theorem setEntries_keys (entries : List α) (x : α) :
    (setEntries key entries x).map key =
      if key x ∈ entries.map key then entries.map key else entries.map key ++ [key x] := by
  unfold setEntries
  split_ifs with present
  · rw [List.map_map]
    apply List.map_congr_left
    intro y _
    show key (if key y = key x then x else y) = key y
    split_ifs with here
    · exact here.symm
    · rfl
  · exact List.map_append

theorem setEntries_distinct {entries : List α} (distinct : (entries.map key).Nodup) (x : α) :
    ((setEntries key entries x).map key).Nodup := by
  rw [setEntries_keys]
  split_ifs with present
  · exact distinct
  · exact List.nodup_append_comm.mp (List.nodup_cons.mpr ⟨present, distinct⟩)

def set (m : Keyed key) (x : α) : Keyed key :=
  ⟨setEntries key m.entries x, setEntries_distinct m.distinct x⟩

def delete (m : Keyed key) (k : κ) : Keyed key :=
  ⟨m.entries.filter fun y => key y ≠ k, m.distinct.sublist (List.filter_sublist.map key)⟩

variable {m : Keyed key} {x y : α} {k : κ}

theorem mem_delete : y ∈ m.delete k ↔ y ∈ m ∧ key y ≠ k := by
  show y ∈ m.entries.filter _ ↔ _
  rw [List.mem_filter, decide_eq_true_iff, mem_def]

theorem mem_set : y ∈ m.set x ↔ y = x ∨ y ∈ m ∧ key y ≠ key x := by
  show y ∈ setEntries key m.entries x ↔ y = x ∨ y ∈ m.entries ∧ key y ≠ key x
  unfold setEntries
  split_ifs with present
  · constructor
    · intro member
      obtain ⟨z, inside, same⟩ := List.mem_map.mp member
      split_ifs at same with here
      · exact Or.inl same.symm
      · exact Or.inr ⟨same ▸ inside, same ▸ here⟩
    · rintro (rfl | ⟨inside, other⟩)
      · obtain ⟨z, inside, here⟩ := List.mem_map.mp present
        exact List.mem_map.mpr ⟨z, inside, if_pos here⟩
      · exact List.mem_map.mpr ⟨y, inside, if_neg other⟩
  · constructor
    · intro member
      rcases List.mem_append.mp member with inside | last
      · exact Or.inr ⟨inside, fun here => present (here ▸ List.mem_map_of_mem inside)⟩
      · exact Or.inl (List.mem_singleton.mp last)
    · rintro (rfl | ⟨inside, -⟩)
      · exact List.mem_append_right _ List.mem_cons_self
      · exact List.mem_append_left _ inside

theorem get_eq_some : m.get k = some y ↔ y ∈ m ∧ key y = k := by
  show m.entries.find? (fun y => key y = k) = some y ↔ _
  constructor
  · intro found
    exact ⟨List.mem_of_find?_eq_some found, by simpa using List.find?_some found⟩
  · rintro ⟨inside, rfl⟩
    cases found : m.entries.find? fun z => key z = key y with
    | none => exact absurd (List.find?_eq_none.mp found y inside) (by simp)
    | some z =>
        have same : key z = key y := by simpa using List.find?_some found
        rw [eq_of_key (List.mem_of_find?_eq_some found) inside same]

theorem get_eq_none : m.get k = none ↔ ∀ y ∈ m, key y ≠ k := by
  rw [get, List.find?_eq_none]
  simp only [decide_eq_true_eq, ne_eq]
  rfl

theorem get_empty : (empty : Keyed key).get k = none := rfl

theorem get_set : (m.set x).get k = if key x = k then some x else m.get k := by
  split_ifs with here
  · exact get_eq_some.mpr ⟨mem_set.mpr (Or.inl rfl), here⟩
  · apply Option.ext
    intro y
    rw [get_eq_some, get_eq_some, mem_set]
    constructor
    · rintro ⟨rfl | ⟨inside, -⟩, named⟩
      · exact absurd named here
      · exact ⟨inside, named⟩
    · rintro ⟨inside, rfl⟩
      exact ⟨Or.inr ⟨inside, fun same => here same.symm⟩, rfl⟩

theorem get_delete {k' : κ} : (m.delete k).get k' = if k = k' then none else m.get k' := by
  split_ifs with here
  · refine get_eq_none.mpr fun y member => ?_
    exact here ▸ (mem_delete.mp member).2
  · apply Option.ext
    intro y
    rw [get_eq_some, get_eq_some, mem_delete]
    constructor
    · rintro ⟨⟨inside, -⟩, named⟩
      exact ⟨inside, named⟩
    · rintro ⟨inside, rfl⟩
      exact ⟨⟨inside, fun same => here same.symm⟩, rfl⟩

end Keyed
