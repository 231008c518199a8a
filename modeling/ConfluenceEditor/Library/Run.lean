/-
Runs of a labelled machine whose steps may fail.

`run step s labels` performs the labels in order and fails as soon as one of them does. `Reaches`
forgets the labels; `Reaches.invariant` is the induction over a run: what holds at the start and is
kept by every successful step holds at the end. `Always` is a property of every state on the way and
`Each` a condition on every step that is taken; `always_iff_each` and `always_of_each` relate the
two by one look at a single step.
-/

import Mathlib.Data.List.Induction
import Mathlib.Tactic.Common

namespace Run

variable {σ label error : Type} {step : σ → label → Except error σ}

/-- Perform the labels in order. -/
def run (step : σ → label → Except error σ) : σ → List label → Except error σ
  | s, [] => .ok s
  | s, l :: labels =>
      match step s l with
      | .ok s' => run step s' labels
      | .error e => .error e

theorem run_append {s s' : σ} {first second : List label} (ran : run step s first = .ok s') :
    run step s (first ++ second) = run step s' second := by
  induction first generalizing s with
  | nil =>
      obtain rfl := Except.ok.inj ran
      rfl
  | cons l first ih =>
      simp only [run, List.cons_append] at ran ⊢
      cases moved : step s l with
      | error e => rw [moved] at ran; cases ran
      | ok s₁ =>
          rw [moved] at ran
          exact ih ran

/-- Some labels lead from `s` to `s'`. -/
def Reaches (step : σ → label → Except error σ) (s s' : σ) : Prop :=
  ∃ labels, run step s labels = .ok s'

theorem Reaches.refl (s : σ) : Reaches step s s := ⟨[], rfl⟩

theorem Reaches.trans {s s' s'' : σ} (first : Reaches step s s') (second : Reaches step s' s'') :
    Reaches step s s'' := by
  obtain ⟨labels, ran⟩ := first
  obtain ⟨labels', ran'⟩ := second
  exact ⟨labels ++ labels', (run_append ran).trans ran'⟩

theorem Reaches.single {s s' : σ} {l : label} (moved : step s l = .ok s') :
    Reaches step s s' := ⟨[l], by simp [run, moved]⟩

/-- The induction over a run. -/
theorem Reaches.invariant {P : σ → Prop} {s s' : σ} (reached : Reaches step s s') (start : P s)
    (kept : ∀ s l s', P s → step s l = .ok s' → P s') : P s' := by
  obtain ⟨labels, ran⟩ := reached
  induction labels generalizing s with
  | nil =>
      obtain rfl := Except.ok.inj ran
      exact start
  | cons l labels ih =>
      simp only [run] at ran
      cases moved : step s l with
      | error e => rw [moved] at ran; cases ran
      | ok s₁ =>
          rw [moved] at ran
          exact ih (kept s l s₁ start moved) ran

/-! ### Every state of a run -/

/-- `P` holds in every state that performing the labels passes through. -/
def Always (step : σ → label → Except error σ) (P : σ → Prop) : σ → List label → Prop
  | s, [] => P s
  | s, l :: labels => P s ∧ ∀ s', step s l = .ok s' → Always step P s' labels

/-- Every step that is taken meets the condition `C`. -/
def Each (step : σ → label → Except error σ) (C : σ → label → Prop) : σ → List label → Prop
  | _, [] => True
  | s, l :: labels => ∀ s', step s l = .ok s' → C s l ∧ Each step C s' labels

/-- A decidable condition is checked by performing the run. -/
instance decidableEach {C : σ → label → Prop} [decC : ∀ s l, Decidable (C s l)] :
    (s : σ) → (labels : List label) → Decidable (Each step C s labels)
  | _, [] => isTrue trivial
  | s, l :: labels =>
      match moved : step s l with
      | .ok s₁ =>
          have := decidableEach (C := C) s₁ labels
          decidable_of_iff (C s l ∧ Each step C s₁ labels)
            ⟨fun met s' same => by
              obtain rfl := Except.ok.inj (moved.symm.trans same)
              exact met,
            fun each => each s₁ moved⟩
      | .error e => isTrue fun s' same => by
          rw [moved] at same
          cases same

theorem Always.start {P : σ → Prop} {s : σ} {labels : List label}
    (always : Always step P s labels) : P s := by
  cases labels with
  | nil => exact always
  | cons l labels => exact always.1

/-- If every step keeps `P` exactly when it meets `C`, then `P` holds all along a run exactly when
all its steps meet `C`. -/
theorem always_iff_each {I P : σ → Prop} {C : σ → label → Prop}
    (kept : ∀ s l s', I s → step s l = .ok s' → I s')
    (exact : ∀ s l s', I s → P s → step s l = .ok s' → (P s' ↔ C s l))
    {s : σ} (start : I s) (holds : P s) (labels : List label) :
    Always step P s labels ↔ Each step C s labels := by
  induction labels generalizing s with
  | nil => exact ⟨fun _ => trivial, fun _ => holds⟩
  | cons l labels ih =>
      constructor
      · rintro ⟨-, always⟩ s' moved
        have next := always s' moved
        have holds' := next.start
        exact ⟨(exact s l s' start holds moved).mp holds',
          (ih (kept s l s' start moved) holds').mp next⟩
      · intro each
        refine ⟨holds, fun s' moved => ?_⟩
        obtain ⟨met, rest⟩ := each s' moved
        exact (ih (kept s l s' start moved) ((exact s l s' start holds moved).mpr met)).mpr rest

/-- What holds at the start and is kept by every step that meets `C` holds all along a run whose
steps meet `C`. -/
theorem always_of_each {P : σ → Prop} {C : σ → label → Prop}
    (kept : ∀ s l s', P s → C s l → step s l = .ok s' → P s')
    {s : σ} (start : P s) {labels : List label} (each : Each step C s labels) :
    Always step P s labels := by
  induction labels generalizing s with
  | nil => exact start
  | cons l labels ih =>
      refine ⟨start, fun s' moved => ?_⟩
      obtain ⟨met, rest⟩ := each s' moved
      exact ih (kept s l s' start met moved) rest

/-- If a step can only lead to a state with `P` when it meets `C`, then the steps of a run through
states with `P` meet `C`. -/
theorem each_of_always {I P : σ → Prop} {C : σ → label → Prop}
    (kept : ∀ s l s', I s → step s l = .ok s' → I s')
    (needs : ∀ s l s', I s → step s l = .ok s' → P s' → C s l)
    {s : σ} (start : I s) {labels : List label} (always : Always step P s labels) :
    Each step C s labels := by
  induction labels generalizing s with
  | nil => exact trivial
  | cons l labels ih =>
      intro s' moved
      have next := always.2 s' moved
      exact ⟨needs s l s' start moved next.start, ih (kept s l s' start moved) next⟩

theorem each_true {s : σ} (labels : List label) : Each step (fun _ _ => True) s labels := by
  induction labels generalizing s with
  | nil => exact trivial
  | cons l labels ih => exact fun _ _ => ⟨trivial, ih⟩

theorem Each.imp {C D : σ → label → Prop} (weaker : ∀ s l, C s l → D s l) {s : σ}
    {labels : List label} (each : Each step C s labels) : Each step D s labels := by
  induction labels generalizing s with
  | nil => exact trivial
  | cons l labels ih =>
      intro s' moved
      obtain ⟨met, rest⟩ := each s' moved
      exact ⟨weaker s l met, ih rest⟩

/-- What a step does that meets `C` in a state with `P`, it does all along a run whose steps meet `C`. -/
theorem Each.derive {P : σ → Prop} {C D : σ → label → Prop}
    (kept : ∀ s l s', P s → C s l → step s l = .ok s' → P s')
    (does : ∀ s l, P s → C s l → D s l) {s : σ} {labels : List label}
    (each : Each step C s labels) (start : P s) : Each step D s labels := by
  induction labels generalizing s with
  | nil => exact trivial
  | cons l labels ih =>
      intro s' moved
      obtain ⟨met, rest⟩ := each s' moved
      exact ⟨does s l start met, ih rest (kept s l s' start met moved)⟩

/-- A condition on the labels alone holds of every step that performs one of them. -/
theorem Each.and_label {C : σ → label → Prop} {D : label → Prop} {s : σ} {labels : List label}
    (each : Each step C s labels) (all : ∀ l ∈ labels, D l) :
    Each step (fun s l => C s l ∧ D l) s labels := by
  induction labels generalizing s with
  | nil => exact trivial
  | cons l labels ih =>
      intro s' moved
      obtain ⟨met, rest⟩ := each s' moved
      exact ⟨⟨met, all l List.mem_cons_self⟩,
        ih rest fun l' member => all l' (List.mem_cons_of_mem _ member)⟩

theorem Each.and {C D : σ → label → Prop} {s : σ} {labels : List label} (each : Each step C s labels)
    (other : Each step D s labels) : Each step (fun s l => C s l ∧ D s l) s labels := by
  induction labels generalizing s with
  | nil => exact trivial
  | cons l labels ih =>
      intro s' moved
      obtain ⟨met, rest⟩ := each s' moved
      obtain ⟨met', rest'⟩ := other s' moved
      exact ⟨⟨met, met'⟩, ih rest rest'⟩

/-- The steps of a run are those of its first part and those of the rest. -/
theorem Each.append {C : σ → label → Prop} {s s' : σ} {first second : List label}
    (each : Each step C s (first ++ second)) (ran : run step s first = .ok s') :
    Each step C s first ∧ Each step C s' second := by
  induction first generalizing s with
  | nil =>
      obtain rfl := Except.ok.inj ran
      exact ⟨trivial, each⟩
  | cons l first ih =>
      simp only [run] at ran
      cases moved : step s l with
      | error e => rw [moved] at ran; cases ran
      | ok s₁ =>
          rw [moved] at ran
          obtain ⟨met, rest⟩ := each s₁ moved
          obtain ⟨front, back⟩ := ih rest ran
          refine ⟨fun s₂ moved' => ?_, back⟩
          obtain rfl := Except.ok.inj (moved.symm.trans moved')
          exact ⟨met, front⟩

theorem Always.imp {P Q : σ → Prop} (weaker : ∀ s, P s → Q s) {s : σ} {labels : List label}
    (always : Always step P s labels) : Always step Q s labels := by
  induction labels generalizing s with
  | nil => exact weaker s always
  | cons l labels ih => exact ⟨weaker s always.1, fun s' moved => ih (always.2 s' moved)⟩

/-- The last state of a run is one of its states. -/
theorem Always.last {P : σ → Prop} {s s' : σ} {labels : List label}
    (always : Always step P s labels) (ran : run step s labels = .ok s') : P s' := by
  induction labels generalizing s with
  | nil =>
      obtain rfl := Except.ok.inj ran
      exact always
  | cons l labels ih =>
      simp only [run] at ran
      cases moved : step s l with
      | error e => rw [moved] at ran; cases ran
      | ok s₁ =>
          rw [moved] at ran
          exact ih (always.2 s₁ moved) ran

/-! ### Concrete runs -/

/-- The run succeeds and its last state passes a test. -/
def ends (outcome : Except error σ) (p : σ → Bool) : Bool :=
  match outcome with
  | .ok s => p s
  | .error _ => false

theorem exists_of_ends (outcome : Except error σ) (p : σ → Bool) (checked : ends outcome p = true) :
    ∃ s, outcome = .ok s ∧ p s = true := by
  cases outcome with
  | ok s => exact ⟨s, rfl, checked⟩
  | error e => cases checked

end Run
