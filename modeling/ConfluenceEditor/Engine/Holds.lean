/-
Who holds the deletions, and what undo and redo make of it.

To one replica a node is shown, deleted by itself, or deleted by somebody else (`Hold`). Reversing an
entry moves one node: a delete takes the deletion over, an undelete gives up the replica's own. The
reversal is answered on the other stack by the opposite kind when it changed what is shown, and by
its own kind when it did not.

Answering a script of reversals leads back through what was shown exactly when no node whose deletion
is somebody else's meets an undelete first and a delete later (`Hold.retraces_iff`). Then the answers
to the answers are the script itself (`Hold.answers_answers`), and it shows the same once more
(`Hold.repeats`).
-/

import ConfluenceEditor.Engine.Engine

namespace ConfluenceEditor

open Engine

/-- What a node is to one replica. -/
inductive Hold where
  | shown
  | own
  | foreign
  deriving DecidableEq, Repr

namespace Hold

/-- A delete takes the deletion over, an undelete gives up the replica's own. -/
def cross : InverseKind → Hold → Hold
  | .delete, _ => .own
  | .undelete, .own => .shown
  | .undelete, hold => hold

/-- The kind that reverses a reversal: the opposite one when it changed what is shown, and the same
one when it did not. -/
def answer : InverseKind → Hold → InverseKind
  | .delete, .shown => .undelete
  | .delete, _ => .delete
  | .undelete, .own => .delete
  | .undelete, _ => .undelete

section Walks

variable {α : Type} [DecidableEq α]

/-- The nodes after one reversal. -/
def crossed (hold : α → Hold) (move : α × InverseKind) : α → Hold :=
  Function.update hold move.1 (cross move.2 (hold move.1))

/-- What the other stack then holds. -/
def answered (hold : α → Hold) (move : α × InverseKind) : α × InverseKind :=
  (move.1, answer move.2 (hold move.1))

/-- The nodes after all reversals of a script. -/
def ending (hold : α → Hold) (script : List (α × InverseKind)) : α → Hold :=
  script.foldl crossed hold

/-- The nodes after each reversal of a script. -/
def stops : (α → Hold) → List (α × InverseKind) → List (α → Hold)
  | _, [] => []
  | hold, move :: script => crossed hold move :: stops (crossed hold move) script

/-- The answers to a script, the last one first. -/
def answers : (α → Hold) → List (α × InverseKind) → List (α × InverseKind) → List (α × InverseKind)
  | _, [], pushed => pushed
  | hold, move :: script, pushed =>
      answers (crossed hold move) script (answered hold move :: pushed)

/-- The reversals of one node. -/
def kinds (target : α) (script : List (α × InverseKind)) : List InverseKind :=
  script.filterMap fun move => if move.1 = target then some move.2 else none

/-- Which nodes are shown. -/
def shows (hold : α → Hold) (target : α) : Bool := decide (hold target = .shown)

/-- A deletion that is somebody else's meets an undelete first and a delete later. -/
def Retaken (hold : α → Hold) (script : List (α × InverseKind)) (target : α) : Prop :=
  hold target = .foreign ∧ (kinds target script).head? = some .undelete ∧
    .delete ∈ kinds target script

/-- The nodes after a script and all its answers. -/
def restored : (α → Hold) → List (α × InverseKind) → α → Hold
  | hold, [] => hold
  | hold, move :: script => crossed (restored (crossed hold move) script) (answered hold move)

/-- The nodes after each answer. -/
def returns : (α → Hold) → List (α × InverseKind) → List (α → Hold)
  | _, [] => []
  | hold, move :: script => returns (crossed hold move) script ++ [restored hold (move :: script)]

/-- What was before each reversal, the last one first. -/
def retrace (hold : α → Hold) (script : List (α × InverseKind)) : List (α → Hold) :=
  (hold :: stops hold script).dropLast.reverse

variable {hold : α → Hold} {move : α × InverseKind} {script : List (α × InverseKind)} {target : α}

/-! ### Scripts -/

@[simp] theorem crossed_self : crossed hold move move.1 = cross move.2 (hold move.1) :=
  Function.update_self ..

theorem crossed_other (other : target ≠ move.1) : crossed hold move target = hold target :=
  Function.update_of_ne other ..

theorem kinds_cons_self (same : move.1 = target) :
    kinds target (move :: script) = move.2 :: kinds target script :=
  List.filterMap_cons_some (if_pos same)

theorem kinds_cons_other (other : move.1 ≠ target) :
    kinds target (move :: script) = kinds target script :=
  List.filterMap_cons_none (if_neg other)

theorem ending_append (first second : List (α × InverseKind)) :
    ending hold (first ++ second) = ending (ending hold first) second :=
  List.foldl_append

theorem stops_append (first second : List (α × InverseKind)) :
    stops hold (first ++ second) = stops hold first ++ stops (ending hold first) second := by
  induction first generalizing hold with
  | nil => rfl
  | cons move first ih => exact congrArg (crossed hold move :: ·) ih

theorem answers_append (first second pushed : List (α × InverseKind)) :
    answers hold (first ++ second) pushed =
      answers (ending hold first) second (answers hold first pushed) := by
  induction first generalizing hold pushed with
  | nil => rfl
  | cons move first ih => exact ih _

theorem answers_pushed (pushed : List (α × InverseKind)) :
    answers hold script pushed = answers hold script [] ++ pushed := by
  induction script generalizing hold pushed with
  | nil => rfl
  | cons move script ih =>
      show answers (crossed hold move) script (answered hold move :: pushed) =
        answers (crossed hold move) script [answered hold move] ++ pushed
      rw [ih, ih [answered hold move], List.append_assoc, List.singleton_append]

theorem answers_cons :
    answers hold (move :: script) [] =
      answers (crossed hold move) script [] ++ [answered hold move] :=
  answers_pushed [answered hold move]

/-- After the answers the nodes are the restored ones. -/
theorem ending_answers : ending (ending hold script) (answers hold script []) =
    restored hold script := by
  induction script generalizing hold with
  | nil => rfl
  | cons move script ih =>
      show ending (ending (crossed hold move) script) (answers hold (move :: script) []) = _
      rw [answers_cons, ending_append, ih]
      rfl

theorem stops_answers : stops (ending hold script) (answers hold script []) =
    returns hold script := by
  induction script generalizing hold with
  | nil => rfl
  | cons move script ih =>
      show stops (ending (crossed hold move) script) (answers hold (move :: script) []) = _
      rw [answers_cons, stops_append, ih, ending_answers]
      rfl

theorem retrace_cons :
    retrace hold (move :: script) = retrace (crossed hold move) script ++ [hold] := by
  show ((hold :: crossed hold move :: stops (crossed hold move) script).dropLast).reverse = _
  rw [List.dropLast_cons_cons, List.reverse_cons]
  rfl

/-! ### The way back -/

/-- What is restored is what was there, but a deletion of somebody else that the script takes over
stays taken over. -/
def Remains (hold after : α → Hold) (script : List (α × InverseKind)) (target : α) : Prop :=
  after target = hold target ∨
    hold target = .foreign ∧ after target = .own ∧ .delete ∈ kinds target script

theorem remains_self : Remains hold hold script target := Or.inl rfl

/-- What remains is shown as before. -/
theorem Remains.shows {after : α → Hold} (remains : Remains hold after script target) :
    shows after target = shows hold target := by
  rcases remains with same | ⟨before, after, -⟩
  · rw [Hold.shows, Hold.shows, same]
  · rw [Hold.shows, Hold.shows, before, after]
    rfl

/-- Nothing is retaken after the first reversal that was not retaken before. -/
theorem not_retaken_tail (unmixed : ∀ target, ¬ Retaken hold (move :: script) target) (target : α) :
    ¬ Retaken (crossed hold move) script target := by
  rintro ⟨foreign, first, later⟩
  by_cases same : move.1 = target
  · subst same
    rw [crossed_self] at foreign
    -- only an undelete that is spared leaves the deletion with somebody else
    have spared : move.2 = .undelete ∧ hold move.1 = .foreign := by
      revert foreign
      cases move.2 <;> cases hold move.1 <;> decide
    refine unmixed move.1 ⟨spared.2, ?_, ?_⟩
    · rw [kinds_cons_self rfl, spared.1]
      rfl
    · rw [kinds_cons_self rfl]
      exact List.mem_cons_of_mem _ later
  · rw [crossed_other (Ne.symm same)] at foreign
    refine unmixed target ⟨foreign, ?_, ?_⟩
    · rwa [kinds_cons_other same]
    · rwa [kinds_cons_other same]

/-- Taking back one reversal. -/
theorem Remains.back {after : α → Hold} (unmixed : ¬ Retaken hold (move :: script) target)
    (remains : Remains (crossed hold move) after script target) :
    Remains hold (crossed after (answered hold move)) (move :: script) target := by
  by_cases same : move.1 = target
  · subst same
    have step : crossed after (answered hold move) move.1 =
        cross (answer move.2 (hold move.1)) (after move.1) :=
      crossed_self
    rw [Remains, crossed_self] at remains
    rw [Remains, step, kinds_cons_self rfl]
    rw [Retaken, kinds_cons_self rfl] at unmixed
    revert remains unmixed
    cases move.2 <;> cases hold move.1 <;> cases after move.1 <;>
      simp +contextual [cross, answer]
  · have step : crossed after (answered hold move) target = after target :=
      crossed_other (Ne.symm same)
    rw [Remains, crossed_other (Ne.symm same)] at remains
    rwa [Remains, step, kinds_cons_other same]

/-- Reversing once more. -/
theorem Remains.forth {after : α → Hold} (unmixed : ¬ Retaken hold (move :: script) target)
    (remains : Remains hold after (move :: script) target) :
    Remains (crossed hold move) (crossed after move) script target := by
  by_cases same : move.1 = target
  · subst same
    rw [Remains, kinds_cons_self rfl] at remains
    rw [Retaken, kinds_cons_self rfl] at unmixed
    rw [Remains, crossed_self, crossed_self]
    revert remains unmixed
    cases move.2 <;> cases hold move.1 <;> cases after move.1 <;> simp +contextual [cross]
  · rw [Remains, kinds_cons_other same] at remains
    rwa [Remains, crossed_other (Ne.symm same), crossed_other (Ne.symm same)]

/-- An answer is answered by the reversal itself. -/
theorem Remains.answered {after : α → Hold} (unmixed : ¬ Retaken hold (move :: script) move.1)
    (remains : Remains (crossed hold move) after script move.1) :
    answered after (answered hold move) = move := by
  have kind : answer (answer move.2 (hold move.1)) (after move.1) = move.2 := by
    rw [Remains, crossed_self] at remains
    rw [Retaken, kinds_cons_self rfl] at unmixed
    revert remains unmixed
    cases move.2 <;> cases hold move.1 <;> cases after move.1 <;>
      simp +contextual [cross, answer]
  exact Prod.ext rfl kind

theorem remains_restored (unmixed : ∀ target, ¬ Retaken hold script target) (target : α) :
    Remains hold (restored hold script) script target := by
  induction script generalizing hold with
  | nil => exact remains_self
  | cons move script ih => exact (ih (not_retaken_tail unmixed)).back (unmixed target)

theorem shows_restored (unmixed : ∀ target, ¬ Retaken hold script target) :
    shows (restored hold script) = shows hold :=
  funext fun target => (remains_restored unmixed target).shows

/-- The answers lead back through what was shown. -/
theorem retraces (unmixed : ∀ target, ¬ Retaken hold script target) :
    (returns hold script).map shows = (retrace hold script).map shows := by
  induction script generalizing hold with
  | nil => rfl
  | cons move script ih =>
      rw [returns, retrace_cons, List.map_append, List.map_append, ih (not_retaken_tail unmixed),
        List.map_singleton, List.map_singleton, shows_restored unmixed]

/-- The answers to the answers are the script. -/
theorem answers_answers (unmixed : ∀ target, ¬ Retaken hold script target) :
    answers (ending hold script) (answers hold script []) [] = script := by
  induction script generalizing hold with
  | nil => rfl
  | cons move script ih =>
      have rest := not_retaken_tail unmixed
      show answers (ending (crossed hold move) script) (answers hold (move :: script) []) [] = _
      rw [answers_cons, answers_append, ih rest, ending_answers]
      show Hold.answered (restored (crossed hold move) script) (Hold.answered hold move) :: script = _
      rw [(remains_restored rest move.1).answered (unmixed move.1)]

/-- From what remains, the script shows the same again. -/
theorem repeats {after : α → Hold} (unmixed : ∀ target, ¬ Retaken hold script target)
    (remains : ∀ target, Remains hold after script target) :
    (stops after script).map shows = (stops hold script).map shows := by
  induction script generalizing hold after with
  | nil => rfl
  | cons move script ih =>
      have next := fun target => (remains target).forth (unmixed target)
      have same : shows (crossed after move) = shows (crossed hold move) :=
        funext fun target => (next target).shows
      rw [stops, stops, List.map_cons, List.map_cons, same, ih (not_retaken_tail unmixed) next]

/-! ### What goes wrong otherwise -/

/-- Answering never hides what was shown: only a deletion of somebody else can have changed. -/
theorem restored_eq (other : hold target ≠ .foreign) : restored hold script target = hold target := by
  induction script generalizing hold with
  | nil => rfl
  | cons move script ih =>
      rw [restored]
      by_cases same : move.1 = target
      · subst same
        have step : crossed (restored (crossed hold move) script) (Hold.answered hold move) move.1 =
            cross (answer move.2 (hold move.1)) (restored (crossed hold move) script move.1) :=
          crossed_self
        have next : crossed hold move move.1 ≠ .foreign := by
          rw [crossed_self]
          revert other
          cases move.2 <;> cases hold move.1 <;> decide
        rw [step, ih next, crossed_self]
        revert other
        cases move.2 <;> cases hold move.1 <;> decide
      · have step : crossed (restored (crossed hold move) script) (Hold.answered hold move) target =
            restored (crossed hold move) script target :=
          crossed_other (Ne.symm same)
        have next : crossed hold move target = hold target := crossed_other (Ne.symm same)
        rw [step, ih (by rwa [next]), next]

theorem shows_of_shows (shown : shows hold target = true) :
    shows (restored hold script) target = true := by
  have same : hold target = .shown := of_decide_eq_true shown
  rw [Hold.shows, restored_eq (by rw [same]; decide), same]
  rfl

/-- Where a way back shows what was seen, a deletion of somebody else that the script takes over
meets a delete first, and stays taken over. -/
theorem taken_of_seen {β : Type} (view : (α → Bool) → β) (target : α)
    (faithful : ∀ before after : α → Bool, (∀ x, before x = true → after x = true) →
      view after = view before → after target = before target)
    (seen : (returns hold script).map (fun stop => view (shows stop)) =
      (retrace hold script).map fun stop => view (shows stop))
    (foreign : hold target = .foreign) (taken : .delete ∈ kinds target script) :
    (kinds target script).head? = some .delete ∧ restored hold script target = .own := by
  induction script generalizing hold with
  | nil => cases taken
  | cons move script ih =>
      rw [returns, retrace_cons, List.map_append, List.map_append, List.map_singleton,
        List.map_singleton] at seen
      obtain ⟨earlier, last⟩ := List.append_inj' seen rfl
      have hidden : shows (restored hold (move :: script)) target = false := by
        rw [faithful _ _ (fun x => shows_of_shows) (List.singleton_inj.mp last), shows, foreign]
        rfl
      by_cases same : move.1 = target
      · subst same
        have step : restored hold (move :: script) move.1 =
            cross (answer move.2 .foreign) (restored (crossed hold move) script move.1) := by
          rw [← foreign]
          exact crossed_self
        rw [kinds_cons_self rfl] at taken ⊢
        cases kind : move.2 with
        | delete =>
            rw [step, kind]
            exact ⟨rfl, rfl⟩
        | undelete =>
            -- the undelete is spared here, but its answer is not: the deletion is taken over by then
            have later : .delete ∈ kinds move.1 script :=
              (List.mem_cons.mp taken).resolve_left (by rw [kind]; decide)
            have next : crossed hold move move.1 = .foreign := by
              rw [crossed_self, kind, foreign]
              rfl
            rw [shows, step, (ih earlier next later).2, kind] at hidden
            cases hidden
      · have next : crossed hold move target = .foreign := by
          rw [crossed_other (Ne.symm same), foreign]
        have step : restored hold (move :: script) target =
            restored (crossed hold move) script target :=
          crossed_other (Ne.symm same)
        rw [kinds_cons_other same] at taken ⊢
        rw [step]
        exact ih earlier next taken

/-- The way back shows what was seen exactly when no deletion of somebody else is retaken. -/
theorem retraces_iff {β : Type} (view : (α → Bool) → β)
    (faithful : ∀ target, ∀ before after : α → Bool, (∀ x, before x = true → after x = true) →
      (∃ move ∈ script, move.1 = target) → view after = view before → after target = before target) :
    (returns hold script).map (fun stop => view (shows stop)) =
        ((retrace hold script).map fun stop => view (shows stop)) ↔
      ∀ target, ¬ Retaken hold script target := by
  constructor
  · rintro seen target ⟨foreign, first, later⟩
    obtain ⟨move, member, image⟩ := List.mem_filterMap.mp later
    have about : move.1 = target := by
      by_contra other
      rw [if_neg other] at image
      cases image
    have taken := taken_of_seen view target
      (fun before after larger => faithful target before after larger ⟨move, member, about⟩) seen
      foreign later
    rw [first] at taken
    cases taken.1
  · intro unmixed
    have shown := congrArg (List.map view) (retraces unmixed)
    rwa [List.map_map, List.map_map] at shown

end Walks

end Hold

end ConfluenceEditor
