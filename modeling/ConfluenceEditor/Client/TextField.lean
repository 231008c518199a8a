/-
The editor as a text field.

A field is a text and the range that is selected. Input puts the edit that it asks for in the place of the
range and the caret behind it; operations of others replace the text, and the ends of the range stay at
their indices. As long as the client lets everything through, the editor is that field (`editor_refines`):
the DOM, its positions and the writer's index are gone.
-/

import ConfluenceEditor.Client.InputRuns

namespace ConfluenceEditor

open Engine PositionMapping Throwing

/-- The range between two ends. -/
def VisRange.between (a b : Nat) : VisRange := ⟨min a b, max a b⟩

theorem VisRange.between_of_le {a b : Nat} (order : a ≤ b) : VisRange.between a b = ⟨a, b⟩ := by
  rw [between, Nat.min_eq_left order, Nat.max_eq_right order]

theorem VisRange.between_comm (a b : Nat) : VisRange.between a b = .between b a := by
  rw [between, Nat.min_comm, Nat.max_comm, between]

/-- It does not matter which end comes first. -/
theorem VisRange.between_map (f : Nat → Nat) (a b : Nat) :
    VisRange.between (f (VisRange.between a b).start) (f (VisRange.between a b).stop) =
      .between (f a) (f b) := by
  rcases Nat.le_total a b with order | order
  · rw [between_of_le order]
  · rw [between_comm a b, between_of_le order, between_comm]

structure TextField where
  text : List Nat
  selection : VisRange
  deriving DecidableEq, Repr

namespace TextField

/-- An edit of nothing leaves the selection as it is. -/
def put (f : TextField) (edit : Edit) : TextField :=
  if edit.count = 0 ∧ edit.inserted = [] then f
  else
    { text := Pieces.splice edit.start edit.count edit.inserted f.text
      selection := .between (edit.start + edit.inserted.length) (edit.start + edit.inserted.length) }

def input (segmenter : Segmenter) (f : TextField) (ev : InputEvent) : TextField :=
  match InputPipeline.wanted segmenter f.text f.selection f.selection ev with
  | none => f
  | some edit => f.put edit

/-- The text of others; an end that is behind it falls back to the start. -/
def replace (f : TextField) (text : List Nat) : TextField :=
  { text
    selection := .between (InputPipeline.keptIndex text.length f.selection.start)
      (InputPipeline.keptIndex text.length f.selection.stop) }

def event (segmenter : Segmenter) (f : TextField) : EditorEvent → TextField
  | .beforeinput _ ev => f.input segmenter ev
  | .remoteOps remote => f.replace (remote.engine.visible.map Node.value)
  | _ => f

end TextField

namespace InputPipeline

def field (s : InputPipeline) : TextField := ⟨s.text, s.liveSelectionRange⟩

/-- Both ends of the selection are at visible indices. -/
def Mapped (s : InputPipeline) : Prop :=
  ∃ sel ∈ s.selection, ∃ anchorVis focusVis,
    domToVis s.domWriter.runs sel.anchor.node sel.anchor.offset = .ok anchorVis ∧
    domToVis s.domWriter.runs sel.focus.node sel.focus.offset = .ok focusVis

/-- Input goes to the selection, and the client lets it through; operations of others find the selection
in the document. -/
def Answers (segmenter : Segmenter) (s : InputPipeline) : EditorEvent → Prop
  | .beforeinput nowMs ev => s.sync.engine.isSome = true ∧ ev.targetRange = none ∧
      ∀ edit ∈ asked segmenter s ev, (0 < edit.count → s.Deletes nowMs edit) ∧
        (edit.inserted ≠ [] → s.Inserts nowMs edit)
  | .keydown _ => True
  | .remoteOps _ => s.mounted = true ∧ s.Mapped
  | _ => False

variable {s s' : InputPipeline} {isClusterContinuing : Nat → Bool} {segmenter : Segmenter}

theorem field_untouched (untouched : s.Untouched s') : s'.field = s.field := by
  have ⟨sync, domWriter, selection⟩ := untouched
  have text : s'.text = s.text := by rw [InputPipeline.text, sync, InputPipeline.text]
  rw [field, field, text, liveSelectionRange, domWriter, selection, liveSelectionRange]

/-- What the selection covers, in whichever direction it was made. -/
theorem live_of_mapped {sel : LiveSelection} (selected : s.selection = some sel) {anchorVis focusVis : Nat}
    (anchor : domToVis s.domWriter.runs sel.anchor.node sel.anchor.offset = .ok anchorVis)
    (focus : domToVis s.domWriter.runs sel.focus.node sel.focus.offset = .ok focusVis) :
    s.liveSelectionRange = .between anchorVis focusVis := by
  have first : CompositionController.safeDomToVis s.domWriter.runs sel.anchor.node sel.anchor.offset =
      anchorVis := by rw [CompositionController.safeDomToVis, anchor]
  have second : CompositionController.safeDomToVis s.domWriter.runs sel.focus.node sel.focus.offset =
      focusVis := by rw [CompositionController.safeDomToVis, focus]
  have sorted : ∀ a b : Nat, (if a ≤ b then (⟨a, b⟩ : VisRange) else ⟨b, a⟩) = .between a b := by
    intro a b
    split
    · exact (VisRange.between_of_le ‹_›).symm
    · rw [VisRange.between_comm, VisRange.between_of_le (Nat.le_of_not_le ‹_›)]
  rw [liveSelectionRange, selected, Option.map_some, LiveSelection.range]
  by_cases backward : sel.backward = true
  · rw [if_pos backward, CompositionController.liveSelectionRange]
    dsimp only
    rw [first, second, sorted, VisRange.between_comm]
  · rw [if_neg backward, CompositionController.liveSelectionRange]
    dsimp only
    rw [first, second, sorted]

/-- An edit that is let through is put into the field. -/
theorem field_edited {nowMs : Nat} {edit : Edit} (edited : s.Edited s' nowMs edit)
    (deletes : 0 < edit.count → s.Deletes nowMs edit)
    (inserts : edit.inserted ≠ [] → s.Inserts nowMs edit) : s'.field = s.field.put edit := by
  have ⟨text, behind, before, idle⟩ := edited
  have removed : (if s.Deletes nowMs edit then edit.count else 0) = edit.count := by
    split
    · rfl
    · exact (Nat.eq_zero_of_not_pos fun positive => ‹¬ _› (deletes positive)).symm
  have added : (if s.Inserts nowMs edit then edit.inserted else []) = edit.inserted := by
    split
    · rfl
    · exact (not_not.mp fun some => ‹¬ _› (inserts some)).symm
  rw [removed, added] at text
  have collapsed : ∀ k, s'.caretAt k → s'.liveSelectionRange = .between k k := fun k caret => by
    rw [VisRange.between, Nat.min_self, Nat.max_self]
    exact caret
  rw [TextField.put]
  by_cases nothing : edit.count = 0 ∧ edit.inserted = []
  · rw [if_pos nothing]
    exact field_untouched (idle (fun does => does.1 nothing.2) fun does => does.1.ne' nothing.1)
  · rw [if_neg nothing, field, text]
    by_cases empty : edit.inserted = []
    · have positive : 0 < edit.count := Nat.pos_of_ne_zero fun none => nothing ⟨none, empty⟩
      have caret := before (fun does => does.1 empty) (deletes positive)
      rw [collapsed _ caret, empty, List.length_nil, Nat.add_zero]
      rfl
    · rw [collapsed _ (behind (inserts empty))]
      rfl

/-- One event of the editor is one of the field. -/
theorem field_step (agrees : s.Agrees) {event : EditorEvent} (undisturbed : s.Undisturbed event)
    (answers : Answers segmenter s event) (moved : step isClusterContinuing segmenter s event = .ok s') :
    s'.field = s.field.event segmenter event := by
  have effect := (agrees.step undisturbed moved).2
  cases event with
  | beforeinput nowMs ev =>
      obtain ⟨present, untargeted, through⟩ := answers
      have absent : ¬ s.sync.engine.isNone = true := by
        rw [← Option.not_isSome, present]
        exact Bool.false_ne_true
      have range : s.resolvedRange ev = s.liveSelectionRange := by
        rw [resolvedRange, targetRange, untargeted]
        rfl
      have same : asked segmenter s ev =
          wanted segmenter s.field.text s.field.selection s.field.selection ev := by
        rw [asked, if_neg absent, range]
        rfl
      have does : s.Does s' nowMs (asked segmenter s ev) := effect
      rw [same] at does through
      rw [TextField.event, TextField.input]
      cases edit : wanted segmenter s.field.text s.field.selection s.field.selection ev with
      | none =>
          rw [edit] at does
          exact field_untouched does
      | some edit =>
          rw [edit] at does through
          obtain ⟨deletes, inserts⟩ := through _ rfl
          exact field_edited does deletes inserts
  | keydown ke => exact field_untouched effect
  | remoteOps remote =>
      obtain ⟨mounted, sel, selected, anchorVis, focusVis, anchor, focus⟩ := answers
      obtain ⟨sync, kept⟩ := effect
      obtain ⟨sel', selected', anchor', focus'⟩ := kept mounted sel selected anchorVis focusVis anchor focus
      have text : s'.text = remote.engine.visible.map Node.value := text_of_engine (by
        rw [sync]
        exact remote.resident)
      rw [text] at anchor' focus'
      rw [TextField.event, TextField.replace, field, field, text, live_of_mapped selected anchor focus,
        live_of_mapped selected' anchor' focus', VisRange.between_map]
  | undoTask nowMs => exact answers.elim
  | redoTask nowMs => exact answers.elim
  | replaced remote => exact answers.elim
  | synced => exact answers.elim
  | mutation data children => exact answers.elim
  | select selection => exact answers.elim

/-- An editor with an empty document. -/
def opened : InputPipeline := stateOf (mountIfNewEngine.run unmounted)

theorem opened_agrees : opened.Agrees :=
  (@Agrees.synced unmounted scalarSegmenter unmounted_agrees).1.agrees

/-- Two letters, and the second one is taken back. -/
def letters : List EditorEvent :=
  [.beforeinput 0 (letter 104), .beforeinput 0 (letter 105), .beforeinput 0 backspace]

end InputPipeline

end ConfluenceEditor
