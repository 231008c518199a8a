/-
Stores that are written behind.

A log of writes is in two parts: the front of it has reached the store, the rest has not, and a crash
takes the rest. What the store holds is the front applied to what was there at first. A view of the
store that no write behind touches is not changed by any of this: it is what it was, with the whole log
applied, with the front applied and after a crash (`view_log`, `view_crash`).
-/

import Mathlib.Data.List.Basic
import Mathlib.Tactic.Common

structure WriteBehind (ω : Type) where
  persisted : List ω
  behind : List ω

namespace WriteBehind

variable {ω σ α : Type}

def empty : WriteBehind ω := ⟨[], []⟩

def log (b : WriteBehind ω) : List ω := b.persisted ++ b.behind

def write (b : WriteBehind ω) (ws : List ω) : WriteBehind ω := { b with behind := b.behind ++ ws }

/-- Writes that get in behind the next `n`. -/
def slip (b : WriteBehind ω) (n : Nat) (ws : List ω) : WriteBehind ω :=
  { b with behind := b.behind.take n ++ ws ++ b.behind.drop n }

/-- The next `n` writes reach the store. -/
def persist (b : WriteBehind ω) (n : Nat) : WriteBehind ω :=
  { persisted := b.persisted ++ b.behind.take n, behind := b.behind.drop n }

def crash (b : WriteBehind ω) : WriteBehind ω := { b with behind := [] }

variable {b : WriteBehind ω}

@[simp] theorem log_write (ws : List ω) : (b.write ws).log = b.log ++ ws :=
  (List.append_assoc _ _ _).symm

@[simp] theorem log_persist (n : Nat) : (b.persist n).log = b.log := by
  rw [log, persist, List.append_assoc, List.take_append_drop, log]

@[simp] theorem log_crash : b.crash.log = b.persisted := List.append_nil _

@[simp] theorem persist_zero : b.persist 0 = b := by
  rw [persist, List.take_zero, List.append_nil, List.drop_zero]

@[simp] theorem slip_nil (n : Nat) : b.slip n [] = b := by
  rw [slip, List.append_nil, List.take_append_drop]

theorem slip_append {front rest : List ω} (split : b.behind = front ++ rest) (ws : List ω) :
    b.slip front.length ws = ⟨b.persisted, front ++ ws ++ rest⟩ := by
  rw [slip, split, List.take_left, List.drop_left]

theorem persist_append {front rest : List ω} (split : b.behind = front ++ rest) :
    b.persist front.length = ⟨b.persisted ++ front, rest⟩ := by
  rw [persist, split, List.take_left, List.drop_left]

/-! ### The store -/

variable {apply : σ → ω → σ} {view : σ → α}

/-- Writes that a view does not see. -/
def Silent (apply : σ → ω → σ) (view : σ → α) (ws : List ω) : Prop :=
  ∀ w ∈ ws, ∀ s, view (apply s w) = view s

theorem view_foldl_silent {ws : List ω} (silent : Silent apply view ws) (s : σ) :
    view (ws.foldl apply s) = view s := by
  induction ws generalizing s with
  | nil => rfl
  | cons w ws ih =>
      have ⟨first, rest⟩ := List.forall_mem_cons.mp silent
      exact (ih rest (apply s w)).trans (first s)

/-- Equal views stay equal when each write looks at the view alone. -/
theorem view_foldl_congr {ws : List ω} (looks : ∀ w ∈ ws, ∀ s s', view s = view s' →
    view (apply s w) = view (apply s' w)) {s s' : σ} (same : view s = view s') :
    view (ws.foldl apply s) = view (ws.foldl apply s') := by
  induction ws generalizing s s' with
  | nil => exact same
  | cons w ws ih =>
      have ⟨first, rest⟩ := List.forall_mem_cons.mp looks
      exact ih rest (first s s' same)

theorem view_log (silent : Silent apply view b.behind) (base : σ) :
    view (b.log.foldl apply base) = view (b.persisted.foldl apply base) := by
  rw [log, List.foldl_append, view_foldl_silent silent]

/-- What a slipped write does not touch does not notice it. -/
theorem view_slip {front rest ws : List ω} (looks : ∀ w ∈ rest, ∀ s s', view s = view s' →
    view (apply s w) = view (apply s' w)) (silent : Silent apply view ws) (base : σ) :
    view ((front ++ ws ++ rest).foldl apply base) = view ((front ++ rest).foldl apply base) := by
  rw [List.foldl_append, List.foldl_append, List.foldl_append]
  exact view_foldl_congr looks (view_foldl_silent silent _)

end WriteBehind
