/-
Programs that may throw.

A program whose exceptions lose the state is an `Except` computation; `ok_of_bind` takes a successful
one apart. A program that leaves behind what it did before it threw is an `EStateM` computation: both
of its outcomes carry a state. `stateOf` is that state, and `Keeps` is a property that a program hands
on whether it returns or throws.
-/

import Mathlib.Tactic.Common

namespace Throwing

variable {ε σ α β : Type}

/-- The first half of a computation that succeeded. -/
theorem ok_of_bind {x : Except ε α} {f : α → Except ε β} {b : β} (ran : x >>= f = .ok b) :
    ∃ a, x = .ok a ∧ f a = .ok b := by
  cases x with
  | error e => cases ran
  | ok a => exact ⟨a, rfl, ran⟩

/-- The state after a program, whether it returned or threw. -/
def stateOf : EStateM.Result ε σ α → σ
  | .ok _ s => s
  | .error _ s => s

@[simp] theorem stateOf_ok (a : α) (s : σ) :
    stateOf (.ok a s : EStateM.Result ε σ α) = s := rfl

@[simp] theorem stateOf_error (e : ε) (s : σ) :
    stateOf (.error e s : EStateM.Result ε σ α) = s := rfl

@[simp] theorem pure_run (a : α) (s : σ) : (pure a : EStateM ε σ α).run s = .ok a s := rfl

@[simp] theorem throw_run (e : ε) (s : σ) : (throw e : EStateM ε σ α).run s = .error e s := rfl

theorem run_bind_of_ok {x : EStateM ε σ α} {s s' : σ} {a : α} (ran : x.run s = .ok a s')
    (f : α → EStateM ε σ β) : (x >>= f).run s = (f a).run s' := by
  change EStateM.bind x f s = (f a).run s'
  rw [EStateM.bind, show x s = .ok a s' from ran]
  rfl

theorem run_bind_of_error {x : EStateM ε σ α} {s s' : σ} {e : ε} (ran : x.run s = .error e s')
    (f : α → EStateM ε σ β) : (x >>= f).run s = .error e s' := by
  change EStateM.bind x f s = .error e s'
  rw [EStateM.bind, show x s = .error e s' from ran]

/-- The first half of a program that returned. -/
theorem ok_of_run_bind {x : EStateM ε σ α} {f : α → EStateM ε σ β} {b : β} {s s'' : σ}
    (ran : (x >>= f).run s = .ok b s'') : ∃ a s', x.run s = .ok a s' ∧ (f a).run s' = .ok b s'' := by
  cases first : x.run s with
  | ok a s' =>
      rw [run_bind_of_ok first] at ran
      exact ⟨a, s', rfl, ran⟩
  | error e s' =>
      rw [run_bind_of_error first] at ran
      cases ran

/-- Returning a value does not touch the state. -/
theorem stateOf_bind_pure (x : EStateM ε σ α) (g : α → β) (s : σ) :
    stateOf ((x >>= fun a => pure (g a)).run s) = stateOf (x.run s) := by
  cases ran : x.run s with
  | ok a s' => rw [run_bind_of_ok ran, pure_run, stateOf_ok, stateOf_ok]
  | error e s' => rw [run_bind_of_error ran, stateOf_error, stateOf_error]

/-- Reading the state. -/
@[simp] theorem run_get_bind (f : σ → EStateM ε σ β) (s : σ) :
    ((get : EStateM ε σ σ) >>= f).run s = (f s).run s := rfl

/-- A change of the state never throws. -/
@[simp] theorem run_modify_bind (g : σ → σ) (f : PUnit → EStateM ε σ β) (s : σ) :
    ((modify g : EStateM ε σ PUnit) >>= f).run s = (f ⟨⟩).run (g s) := rfl

/-- Whether the program returned. -/
def returned : EStateM.Result ε σ α → Bool
  | .ok _ _ => true
  | .error _ _ => false

theorem exists_of_returned (outcome : EStateM.Result ε σ α) (checked : returned outcome = true) :
    ∃ a s, outcome = .ok a s := by
  cases outcome with
  | ok a s => exact ⟨a, s, rfl⟩
  | error e s => cases checked

/-- What the program leaves alone. -/
def Keeps (P : σ → Prop) (x : EStateM ε σ α) : Prop := ∀ s, P s → P (stateOf (x.run s))

theorem Keeps.bind {P : σ → Prop} {x : EStateM ε σ α} {f : α → EStateM ε σ β} (first : Keeps P x)
    (second : ∀ a, Keeps P (f a)) : Keeps P (x >>= f) := by
  intro s holds
  have middle := first s holds
  cases ran : x.run s with
  | ok a s' =>
      rw [ran] at middle
      rw [run_bind_of_ok ran]
      exact second a s' middle
  | error e s' =>
      rw [ran] at middle
      rw [run_bind_of_error ran]
      exact middle

theorem keeps_pure (P : σ → Prop) (a : α) : Keeps P (pure a : EStateM ε σ α) :=
  fun _ holds => holds

theorem keeps_forM {P : σ → Prop} {f : α → EStateM ε σ PUnit} (as : List α)
    (each : ∀ a ∈ as, Keeps P (f a)) : Keeps P (as.forM f) := by
  induction as with
  | nil => exact keeps_pure P _
  | cons a as ih =>
      refine (each a List.mem_cons_self).bind fun _ => ih fun b member => ?_
      exact each b (List.mem_cons_of_mem _ member)

/-- A loop whose steps all return in states with `P`. -/
theorem run_forM_of_ok {P : σ → Prop} {f : α → EStateM ε σ PUnit} {g : σ → α → σ}
    (steps : ∀ a s, P s → (f a).run s = .ok ⟨⟩ (g s a) ∧ P (g s a)) (as : List α) {s : σ}
    (holds : P s) : (as.forM f).run s = .ok ⟨⟩ (as.foldl g s) := by
  induction as generalizing s with
  | nil => rfl
  | cons a as ih =>
      obtain ⟨ran, next⟩ := steps a s holds
      change (f a >>= fun _ => as.forM f).run s = _
      rw [run_bind_of_ok ran, ih next, List.foldl_cons]

end Throwing
