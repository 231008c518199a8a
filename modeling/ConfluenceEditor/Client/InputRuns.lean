/-
Runs of the input pipeline.

While the engine is the mounted one, the DOM shows its text, and an event does to the text what it asks
for (`asked`): its range gives way to its text, in scalars, whole or refused. The caret is then
behind what was put in. A remount keeps the ends of the selection at their indices; an undo changes the engine
behind the back of the DOM, so that the runs are those in which no undo changes the text (`Undisturbed`).
-/

import ConfluenceEditor.Client.CompositionRuns
import ConfluenceEditor.Client.InputPipeline
import Mathlib.Algebra.Order.BigOperators.Group.List

namespace ConfluenceEditor

open Engine UnicodeOffsets RenderIndex PositionMapping Throwing

/-! ### Positions of a selection -/

namespace PositionMapping

variable {index : List RenderRun} {children : List DomNode}

/-- The run of a text node. -/
def runOf (index : List RenderRun) : DomNode → Option RenderRun
  | .text textNode => index.find? (isNode textNode)
  | _ => none

theorem runOf_spec {child : DomNode} {run : RenderRun} (found : runOf index child = some run) :
    run ∈ index ∧ child.textId = some run.textNode.id := by
  cases child with
  | text t =>
      have searched : index.find? (isNode t) = some run := found
      have own : run.textNode.id = t.id := eq_of_beq (List.find?_some (p := isNode t) searched)
      exact ⟨List.mem_of_find?_eq_some searched, congrArg some own.symm⟩
  | element id inner => cases found
  | other id nodeType => cases found

/-- The loop adds up the runs of the text nodes. -/
theorem normalizeLoop_runOf (vis : Nat) :
    normalizeLoop index vis children =
      vis + ((children.filterMap (runOf index)).map RenderRun.scalarLen).sum := by
  induction children generalizing vis with
  | nil => rfl
  | cons child children ih =>
      cases child with
      | text t =>
          cases found : index.find? (isNode t) with
          | none =>
              have skipped : runOf index (.text t) = none := found
              rw [normalizeLoop, found, List.filterMap_cons_none skipped]
              exact ih vis
          | some run =>
              have counted : runOf index (.text t) = some run := found
              rw [normalizeLoop, found, List.filterMap_cons_some counted, List.map_cons,
                List.sum_cons, ← Nat.add_assoc]
              exact ih _
      | element id inner => exact ih vis
      | other id nodeType => exact ih vis

/-- Distinct text nodes have distinct runs. -/
theorem nodup_runsOf (once : (children.filterMap DomNode.textId).Nodup) :
    (children.filterMap (runOf index)).Nodup := by
  induction children with
  | nil => exact List.nodup_nil
  | cons child children ih =>
      cases found : runOf index child with
      | none =>
          rw [List.filterMap_cons_none found]
          refine ih (once.sublist ?_)
          exact (List.sublist_cons_self child children).filterMap _
      | some run =>
          have ⟨_, named⟩ := runOf_spec found
          rw [List.filterMap_cons_some named] at once
          have ⟨absent, later⟩ := List.nodup_cons.mp once
          rw [List.filterMap_cons_some found]
          refine List.nodup_cons.mpr ⟨fun again => absent ?_, ih later⟩
          have ⟨child', member, here⟩ := List.mem_filterMap.mp again
          exact List.mem_filterMap.mpr ⟨child', member, (runOf_spec here).2⟩

theorem Consistent.total (consistent : Consistent index) :
    totalVisibleLength index = (index.map RenderRun.scalarLen).sum := by
  have ⟨pieces, laid, _⟩ := exists_layout consistent.checked consistent.wellFormed
  induction index using List.reverseRecOn with
  | nil => rfl
  | append_singleton runs last _ =>
      have start : last.startVis = 0 + (runs.map RenderRun.scalarLen).sum := startVis_layout laid.symm
      rw [totalVisibleLength, List.getLast?_concat, List.map_append, List.sum_append, List.map_singleton,
        List.sum_singleton]
      show last.startVis + last.scalarLen = _
      rw [start, Nat.zero_add]

/-- A position that is mapped is inside the document. -/
theorem Consistent.domToVis_le (consistent : Consistent index) {node : DomNode} (once : node.Once)
    {offset v : Nat} (mapped : domToVis index node offset = .ok v) :
    v ≤ totalVisibleLength index := by
  rw [consistent.total]
  cases node with
  | text t =>
      rw [domToVis] at mapped
      cases found : index.find? (isNode t) with
      | none =>
          rw [found] at mapped
          cases mapped
      | some run =>
          have member := List.mem_of_find?_eq_some found
          rw [found] at mapped
          dsimp only at mapped
          cases local' : utf16ToScalar run.textNode.data offset with
          | error message =>
              rw [local'] at mapped
              cases mapped
          | ok localScalar =>
              rw [local'] at mapped
              have place : run.startVis + localScalar = v := Except.ok.inj mapped
              obtain ⟨inside, _⟩ := utf16ToScalar_iff.mp local'
              have length : run.scalarLen = (Utf16.codePoints run.textNode.data).length :=
                (consistent.lengths member).trans (List.length_map _)
              obtain ⟨runs, runs', split⟩ := List.append_of_mem member
              obtain ⟨pieces, laid, _⟩ := exists_layout consistent.checked consistent.wellFormed
              have start := startVis_layout (laid.symm.trans split)
              rw [split, List.map_append, List.sum_append, List.map_cons, List.sum_cons]
              omega
  | element id children =>
      have bounded : ¬ ((offset : Int) < 0) := by omega
      rw [domToVis, normalizeElementPosition, if_neg bounded, normalizeLoop_runOf, Nat.zero_add] at mapped
      rw [← Except.ok.inj mapped]
      set first := children.take (min (offset : Int).toNat children.length) with hfirst
      have distinct : (first.filterMap (runOf index)).Nodup :=
        nodup_runsOf (List.Nodup.sublist ((List.take_sublist _ children).filterMap _) once)
      have subset : first.filterMap (runOf index) ⊆ index := by
        intro run member
        obtain ⟨child, _, found⟩ := List.mem_filterMap.mp member
        exact (runOf_spec found).1
      obtain ⟨runs, same, sublist⟩ := List.subperm_of_subset distinct subset
      rw [← (same.map RenderRun.scalarLen).sum_eq]
      exact (sublist.map RenderRun.scalarLen).sum_le_sum fun n _ => Nat.zero_le n
  | other id nodeType => cases mapped

end PositionMapping

/-! ### Edits through a socket that is not connecting -/

namespace SyncClient

variable {c : SyncClient} {e : Engine}

theorem forM_ready {α : Type} {f : α → Method PUnit} (each : ∀ a c, c.ws ≠ some .CONNECTING →
      ∃ c', (f a).run c = .ok ⟨⟩ c' ∧ c'.ws = c.ws) (as : List α) (ready : c.ws ≠ some .CONNECTING) :
    ∃ c', (as.forM f).run c = .ok ⟨⟩ c' ∧ c'.ws = c.ws := by
  induction as generalizing c with
  | nil => exact ⟨c, rfl, rfl⟩
  | cons a as ih =>
      have ⟨c₁, first, same₁⟩ := each a c ready
      have ⟨c', rest, same⟩ := ih (same₁ ▸ ready)
      exact ⟨c', (run_bind_of_ok first _).trans rest, same.trans same₁⟩

theorem queue_ws (ops : List InsertOperation) (c : SyncClient) :
    (ops.foldl (fun c op => c.record (.insert op)) c).ws = c.ws := by
  induction ops generalizing c with
  | nil => rfl
  | cons op ops ih => exact ih _

theorem sendFrame_ready (ops : List Operation) (ready : c.ws ≠ some .CONNECTING) :
    ∃ c', (sendFrame ops).run c = .ok ⟨⟩ c' ∧ c'.ws = c.ws :=
  ⟨c.transmit ops, sendFrame_ok ready ops, transmit_ws c ops⟩

/-- A text that is let through is inserted, and the call returns. -/
theorem localInsertText_ready (isClusterContinuing : Nat → Bool) {nowMs : Nat}
    (resident : c.engine = some e) (issued : e.Issued) {k : Nat} (inside : k ≤ e.visible.length)
    (text : List Nat) (admits : c.Admits nowMs) (ready : c.ws ≠ some .CONNECTING) :
    ∃ ops c' e' new, (localInsertText isClusterContinuing nowMs k text).run c = .ok ops c' ∧
      c'.ws = c.ws ∧ c'.engine = some e' ∧ e'.Issued ∧
      e'.visible = e.visible.take k ++ new ++ e.visible.drop k ∧ new.map Node.value = text := by
  rcases localInsertText_outcome isClusterContinuing nowMs resident issued inside text with
    ⟨refused, _⟩ | ⟨_, e', new, c', passed, resident', issued', visible, values⟩
  · exact absurd admits refused
  obtain ⟨ops, e₁, offlineWindow, _, minted, _⟩ :=
    mintText_visible isClusterContinuing text resident issued inside
  set c₁ : SyncClient := { c with engine := some e₁, offlineWindow } with hc₁
  set c₂ := ops.foldl (fun c op => c.record (.insert op)) c₁ with hc₂
  have queued : (ops.forM fun op => (modify fun c => c.record (.insert op) :
      Method PUnit)).run c₁ = .ok ⟨⟩ c₂ :=
    run_forM_of_ok (P := fun _ => True) (fun _ _ _ => ⟨rfl, trivial⟩) ops trivial
  have ws : c₂.ws = c.ws := queue_ws ops c₁
  have ⟨c₃, sent, same⟩ := forM_ready (f := fun frame : List InsertOperation =>
    sendFrame (frame.map .insert)) (fun frame c => sendFrame_ready (frame.map .insert))
      (operationsToRunMessages ops) (c := c₂) (ws ▸ ready)
  have ran : (localInsertText isClusterContinuing nowMs k text).run c = .ok ops c₃ := by
    rw [localInsertText, run_bind_of_ok (openForEdit_admits resident admits), run_bind_of_ok minted,
      run_bind_of_ok queued, run_bind_of_ok sent]
    rfl
  rcases passed with ⟨ops', returned⟩ | threw
  · cases ran.symm.trans returned
    exact ⟨ops, c', e', new, ran, same.trans ws, resident', issued', visible, values⟩
  · cases ran.symm.trans threw

/-- A deletion that is let through takes its range out, and the call returns. -/
theorem localDelete_ready {nowMs : Nat} (resident : c.engine = some e) (issued : e.Issued)
    (k count : Nat) (admits : c.Admits nowMs) (ready : c.ws ≠ some .CONNECTING) :
    ∃ ops c' e', (localDelete nowMs k count).run c = .ok ops c' ∧ c'.ws = c.ws ∧
      c'.engine = some e' ∧ e'.Issued ∧
      e'.visible = e.visible.take k ++ e.visible.drop (k + count) := by
  rcases localDelete_outcome nowMs resident issued k count with
    ⟨refused, _⟩ | ⟨_, e', c', passed, resident', issued', visible⟩
  · exact absurd admits refused
  obtain ⟨ops, e₁, deleted, _⟩ := issued.spec.1.localDelete k count
  have ⟨c₁, sent, same⟩ := forM_ready (f := deleteRound)
    (fun op c ready => sendFrame_ready (c := c.noteOperationAccepted.record (.delete op)) _ ready) ops
      (c := c.setEngine e₁) ready
  have ran : (localDelete nowMs k count).run c = .ok ops c₁ := by
    rw [localDelete, run_bind_of_ok (openForEdit_admits resident admits), deleted,
      run_bind_of_ok (run_ofEngine_ok (ops, e₁) c), run_modify_bind]
    show (ops.forM deleteRound >>= fun _ => pure ops).run (c.setEngine e₁) = _
    rw [run_bind_of_ok sent]
    rfl
  rcases passed with ⟨ops', returned⟩ | threw
  · cases ran.symm.trans returned
    exact ⟨ops, c', e', ran, same, resident', issued', visible⟩
  · cases ran.symm.trans threw

theorem sendOutcome_engine (outcome : UndoOutcome) (e' : Engine) (c : SyncClient) :
    (stateOf ((sendOutcome outcome).run (c.setEngine e'))).engine = some e' := by
  cases outcome with
  | applied op =>
      rw [sendOutcome, run_modify_bind, stateOf_bind_pure]
      exact (sendOperation_state op (c.setEngine e').noteOperationAccepted).1
  | empty => rfl
  | unavailable => rfl

theorem undo_engine (resident : c.engine = some e) (issued : e.Issued) (nowMs : Nat) :
    ∃ e', (stateOf ((undo nowMs).run c)).engine = some e' ∧ e'.Issued := by
  rcases openForEdit_cases c nowMs with ⟨e₁, same, _, opened⟩ | ⟨_, message, stopped⟩
  · cases resident.symm.trans same
    rw [undo, run_bind_of_ok opened]
    cases undone : e.undo with
    | error message => exact ⟨e, resident, issued⟩
    | ok result =>
        refine ⟨result.2, sendOutcome_engine result.1 result.2 c, issued.call (c := .edit .undo)
          trivial ?_⟩
        rw [Engine.call, Engine.edit, undone]
        rfl
  · rw [undo, run_bind_of_error stopped]
    exact ⟨e, resident, issued⟩

theorem redo_engine (resident : c.engine = some e) (issued : e.Issued) (nowMs : Nat) :
    ∃ e', (stateOf ((redo nowMs).run c)).engine = some e' ∧ e'.Issued := by
  rcases openForEdit_cases c nowMs with ⟨e₁, same, _, opened⟩ | ⟨_, message, stopped⟩
  · cases resident.symm.trans same
    rw [redo, run_bind_of_ok opened]
    cases redone : e.redo with
    | error message => exact ⟨e, resident, issued⟩
    | ok result =>
        refine ⟨result.2, sendOutcome_engine result.1 result.2 c, issued.call (c := .edit .redo)
          trivial ?_⟩
        rw [Engine.call, Engine.edit, redone]
        rfl
  · rw [redo, run_bind_of_error stopped]
    exact ⟨e, resident, issued⟩

/-- Without an engine there is nothing to reverse. -/
theorem reversal_absent (absent : c.engine = none) (nowMs : Nat) :
    stateOf ((undo nowMs).run c) = c ∧ stateOf ((redo nowMs).run c) = c := by
  rcases openForEdit_cases c nowMs with ⟨e, resident, _⟩ | ⟨_, message, stopped⟩
  · rw [absent] at resident
    cases resident
  · rw [undo, redo, run_bind_of_error stopped, run_bind_of_error stopped]
    exact ⟨rfl, rfl⟩

end SyncClient

/-! ### What is asked -/

/-- `count` scalars from `start` on give way to `inserted`. -/
structure Edit where
  start : Nat
  count : Nat
  inserted : List Nat
  deriving DecidableEq, Repr

namespace InputPipeline

/-- The text of the engine, in scalars. -/
def text (s : InputPipeline) : List Nat :=
  match s.sync.engine with
  | none => []
  | some e => e.visible.map Node.value

/-- The caret is at a visible index, and nothing is selected. -/
def caretAt (s : InputPipeline) (k : Nat) : Prop := s.liveSelectionRange = ⟨k, k⟩

/-- What is deleted: the range, or what is found at a caret. -/
def rangeOr (range : VisRange) (found : Nat → Option VisRange) : Option Edit :=
  if range.start < range.stop then some ⟨range.start, range.stop - range.start, []⟩
  else (found range.start).map fun r => ⟨r.start, r.stop - r.start, []⟩

/-- The edit of the text that an event asks for; `range` is its own range, and `live` the selection's. -/
def wanted (segmenter : Segmenter) (text : List Nat) (range live : VisRange) (ev : InputEvent) :
    Option Edit :=
  match ev.inputType with
  | .insertText | .insertReplacementText | .insertFromPaste | .insertFromDrop | .insertLineBreak
  | .insertParagraph =>
      some ⟨range.start, range.stop - range.start, Utf16.codePoints (textForInputType ev)⟩
  | .deleteByDrag | .deleteByCut => some ⟨range.start, range.stop - range.start, []⟩
  | .deleteContentBackward => rangeOr live fun k =>
      (Spans.endingAt (segmenter.spans .grapheme text) k).map fun span => ⟨span.start, span.stop⟩
  | .deleteContentForward => rangeOr live fun k =>
      (Spans.startingAt (segmenter.spans .grapheme text) k).map fun span => ⟨span.start, span.stop⟩
  | .deleteWordBackward => rangeOr range fun k =>
      (Spans.markedBefore (segmenter.spans .word text) k).map fun start => ⟨start, k⟩
  | .deleteWordForward => rangeOr range fun k =>
      (Spans.markedAfter (segmenter.spans .word text) k).map fun stop => ⟨k, stop⟩
  | .deleteSoftLineBackward | .deleteHardLineBackward => rangeOr range fun k =>
      some ⟨lineStart text k, k⟩
  | .insertCompositionText | .deleteCompositionText | .historyUndo | .historyRedo | .other _ => none

/-- Without an engine nothing is asked for. -/
def asked (segmenter : Segmenter) (s : InputPipeline) (ev : InputEvent) : Option Edit :=
  if s.sync.engine.isNone then none
  else wanted segmenter s.text (s.resolvedRange ev) s.liveSelectionRange ev

/-- The client after the deletion of an edit. -/
def afterDeletion (s : InputPipeline) (nowMs : Nat) (edit : Edit) : SyncClient :=
  if 0 < edit.count then
    stateOf ((SyncClient.localDelete nowMs edit.start edit.count).run s.sync)
  else s.sync

def Deletes (s : InputPipeline) (nowMs : Nat) (edit : Edit) : Prop :=
  0 < edit.count ∧ s.sync.Admits nowMs

/-- The deletion counts towards the offline window, before the insertion is let through. -/
def Inserts (s : InputPipeline) (nowMs : Nat) (edit : Edit) : Prop :=
  edit.inserted ≠ [] ∧ (s.afterDeletion nowMs edit).Admits nowMs

instance (s : InputPipeline) (nowMs : Nat) (edit : Edit) : Decidable (s.Deletes nowMs edit) :=
  inferInstanceAs (Decidable (_ ∧ _))

instance (s : InputPipeline) (nowMs : Nat) (edit : Edit) : Decidable (s.Inserts nowMs edit) :=
  inferInstanceAs (Decidable (_ ∧ _))

/-- Nothing of the document or of the selection has changed. -/
def Untouched (s s' : InputPipeline) : Prop :=
  s'.sync = s.sync ∧ s'.domWriter = s.domWriter ∧ s'.selection = s.selection

/-- The edit is performed, each of its halves as far as the client admits it. -/
def Edited (s s' : InputPipeline) (nowMs : Nat) (edit : Edit) : Prop :=
  s'.text = Pieces.splice edit.start (if s.Deletes nowMs edit then edit.count else 0)
      (if s.Inserts nowMs edit then edit.inserted else []) s.text ∧
    (s.Inserts nowMs edit → s'.caretAt (edit.start + edit.inserted.length)) ∧
    (¬ s.Inserts nowMs edit → s.Deletes nowMs edit → s'.caretAt edit.start) ∧
    (¬ s.Inserts nowMs edit → ¬ s.Deletes nowMs edit → s.Untouched s')

/-- What is done for the edit that is asked for. -/
def Does (s s' : InputPipeline) (nowMs : Nat) : Option Edit → Prop
  | none => s.Untouched s'
  | some edit => s.Edited s' nowMs edit

/-- Where an index of the selection is after a remount: an index that is gone falls back to the start. -/
def keptIndex (length k : Nat) : Nat := if k ≤ length then k else 0

/-- What one event does. -/
def Effect (segmenter : Segmenter) (s s' : InputPipeline) : EditorEvent → Prop
  | .beforeinput nowMs ev => s.Does s' nowMs (asked segmenter s ev)
  | .keydown _ => s.Untouched s'
  | .undoTask nowMs => s'.sync = stateOf ((SyncClient.undo nowMs).run s.sync) ∧
      s'.domWriter = s.domWriter ∧ s'.selection = s.selection
  | .redoTask nowMs => s'.sync = stateOf ((SyncClient.redo nowMs).run s.sync) ∧
      s'.domWriter = s.domWriter ∧ s'.selection = s.selection
  | .remoteOps remote => s'.sync = remote.client ∧ (s.mounted = true →
      ∀ sel ∈ s.selection, ∀ anchorVis focusVis,
        domToVis s.domWriter.runs sel.anchor.node sel.anchor.offset = .ok anchorVis →
        domToVis s.domWriter.runs sel.focus.node sel.focus.offset = .ok focusVis →
        ∃ sel', s'.selection = some sel' ∧
          domToVis s'.domWriter.runs sel'.anchor.node sel'.anchor.offset =
            .ok (keptIndex s'.text.length anchorVis) ∧
          domToVis s'.domWriter.runs sel'.focus.node sel'.focus.offset =
            .ok (keptIndex s'.text.length focusVis))
  | .replaced remote => s'.sync = remote.client ∧ s'.domWriter = s.domWriter ∧ s'.mounted = false
  | .synced => s'.sync = s.sync ∧ s'.mounted = s.sync.engine.isSome
  | .mutation data children => s'.sync = s.sync ∧ (s.sync.engine.isSome = true →
      s'.domWriter.materializedText = Utf16.encode s.text ∧
      s'.caretAt (min (sentinelCaret { s with domWriter := mutate data children s.domWriter })
        s.text.length) ∧
      s'.metrics.reconciliation = s.metrics.reconciliation + 1)
  | .select selection => s'.sync = s.sync ∧ s'.domWriter = s.domWriter ∧ s'.selection = selection

/-! ### When the DOM follows -/

/-- The DOM shows the engine's text while the engine is the mounted one. -/
def Displays (s : InputPipeline) : Prop :=
  s.mounted = true → s.domWriter.materializedText = Utf16.encode s.text

/-- The engine of a remote client holds scalars. -/
def Scalar (remote : RemoteClient) : Prop :=
  ∀ v ∈ remote.engine.visible.map Node.value, v.isValidChar

/-- Input goes to the mounted engine, through a socket that is not connecting, as a well-formed string;
an undo or redo leaves the text as it was. -/
def Undisturbed (s : InputPipeline) : EditorEvent → Prop
  | .beforeinput _ ev => s.sync.engine.isSome = s.mounted ∧ s.sync.ws ≠ some .CONNECTING ∧
      WellFormed (textForInputType ev)
  | .undoTask nowMs =>
      text { s with sync := stateOf ((SyncClient.undo nowMs).run s.sync) } = s.text
  | .redoTask nowMs =>
      text { s with sync := stateOf ((SyncClient.redo nowMs).run s.sync) } = s.text
  | .remoteOps remote => Scalar remote
  | .replaced remote => Scalar remote
  | _ => True

/-- An editor whose engine may or may not be mounted. -/
structure Agrees (s : InputPipeline) : Prop where
  issued : ∀ e, s.sync.engine = some e → e.Issued
  scalar : ∀ v ∈ s.text, v.isValidChar
  resident : s.mounted = true → s.sync.engine.isSome = true
  shows : s.mounted = true → s.domWriter.Shows (some s.text)
  once : ∀ sel ∈ s.selection, sel.Once

variable {s s' : InputPipeline} {e : Engine} {t : List Nat}

theorem text_of_engine (resident : s.sync.engine = some e) : s.text = e.visible.map Node.value := by
  rw [text, resident]

/-! ### Positions -/

theorem total_of_shows {w : DomWriter} (shows : w.Shows (some t)) :
    totalVisibleLength w.runs = t.length := by
  have ⟨pieces, laid, _, whole⟩ := shows
  rw [laid.runs, totalVisibleLength_layout, whole]

/-- A visible index is a place in the DOM. -/
theorem positionAt_ok {w : DomWriter} (shows : w.Shows (some t)) {k : Nat} (inside : k ≤ t.length)
    (s : InputPipeline) :
    ∃ position, (positionAt w k).run s = .ok position s ∧ position.node.Once ∧
      domToVis w.runs position.node position.offset = .ok k := by
  have ⟨consistent, _⟩ := shows_consistent shows
  have most : (k : Int) ≤ totalVisibleLength w.runs := by
    rw [total_of_shows shows]
    exact Int.ofNat_le.mpr inside
  obtain ⟨position, mapped, _, back⟩ : ∃ position, visToDom w.runs (rootElement w) k = .ok position ∧
      splitsPair position = false ∧ domToVis w.runs position.node position.offset = .ok k :=
    consistent.domToVis_visToDom 0 (Int.natCast_nonneg k) most
  refine ⟨position, ?_, ?_, back⟩
  · rw [positionAt, mapped]
    rfl
  · have ⟨pieces, laid, _, whole⟩ := shows
    have decodes : ∀ p ∈ pieces, Utf16.codePoints (Utf16.encode p.scalars) = p.scalars :=
      fun p member => Utf16.codePoints_encode (laid.scalar p member)
    rw [rootElement, CompositionController.rootElement, laid.runs] at mapped
    rw [← whole] at inside
    rcases visToDom_layout decodes _ inside with ⟨empty, there⟩ | ⟨_, _, _, _, _, _, _, there⟩
    · rw [there] at mapped
      rw [← Except.ok.inj mapped, empty]
      exact List.nodup_nil
    · rw [there] at mapped
      rw [← Except.ok.inj mapped]
      exact trivial

theorem caretAt_collapsed {position : DomPosition} {k : Nat}
    (mapped : domToVis s.domWriter.runs position.node position.offset = .ok k)
    (selection : s.selection = some (.collapsed position)) : s.caretAt k := by
  have safe : CompositionController.safeDomToVis s.domWriter.runs position.node position.offset = k := by
    rw [CompositionController.safeDomToVis, mapped]
  have range : (LiveSelection.collapsed position).range =
      ⟨position.node, position.offset, position.node, position.offset⟩ := rfl
  rw [caretAt, liveSelectionRange, selection, Option.map_some, range,
    CompositionController.liveSelectionRange]
  dsimp only
  rw [safe, if_pos (Nat.le_refl k)]

/-- A range of the selection, or of an event, is inside the document. -/
theorem range_inside (shows : s.domWriter.Shows (some t)) {range : Option SelectionRange}
    (once : ∀ r ∈ range, r.startContainer.Once ∧ r.endContainer.Once) :
    (CompositionController.liveSelectionRange s.domWriter.runs range).start ≤
        (CompositionController.liveSelectionRange s.domWriter.runs range).stop ∧
      (CompositionController.liveSelectionRange s.domWriter.runs range).stop ≤ t.length := by
  have ⟨consistent, _⟩ := shows_consistent shows
  have safe : ∀ {node : DomNode} {offset : Nat}, node.Once →
      CompositionController.safeDomToVis s.domWriter.runs node offset ≤ t.length := by
    intro node offset inTree
    rw [← total_of_shows shows, CompositionController.safeDomToVis]
    cases mapped : domToVis s.domWriter.runs node offset with
    | ok vis => exact consistent.domToVis_le inTree mapped
    | error message => exact Nat.le_refl _
  cases range with
  | none => exact ⟨Nat.le_refl 0, Nat.zero_le _⟩
  | some r =>
      have ⟨first, second⟩ := once r rfl
      rw [CompositionController.liveSelectionRange]
      split
      · exact ⟨‹_›, safe second⟩
      · exact ⟨Nat.le_of_not_le ‹_›, safe first⟩

/-! ### What is displayed -/

theorem engineText_ok (resident : s.sync.engine = some e) (scalar : ∀ v ∈ s.text, v.isValidChar) :
    engineText.run s = .ok (some (Utf16.encode s.text)) s := by
  have same := text_of_engine resident
  have spelled := CompositionController.text_eq (e := e) fun v member =>
    le_of_isValidChar (scalar v (same ▸ member))
  rw [engineText, run_get_bind, resident]
  dsimp only
  rw [spelled, same]
  rfl

theorem engineText_none (absent : s.sync.engine = none) : engineText.run s = .ok none s := by
  rw [engineText, run_get_bind, absent]
  rfl

theorem placeCaretAt_ok (shows : s.domWriter.Shows (some t)) {k : Nat} (inside : k ≤ t.length) :
    ∃ selection, (placeCaretAt k).run s = .ok () { s with selection := some selection } ∧
      selection.Once ∧ caretAt { s with selection := some selection } k := by
  have ⟨position, ran, once, mapped⟩ := positionAt_ok shows inside s
  have mounted : ¬ s.domWriter.root = none := by
    have ⟨pieces, laid, _⟩ := shows
    rw [laid.root]
    exact Option.some_ne_none _
  refine ⟨.collapsed position, ?_, ⟨once, once⟩, caretAt_collapsed mapped rfl⟩
  rw [placeCaretAt, run_get_bind, if_neg mounted, run_bind_of_ok ran]
  rfl

/-- The writer patches the DOM for the engine's new text, and the caret is placed. -/
theorem display_ok (resident : s.sync.engine = some e) (scalar : ∀ v ∈ s.text, v.isValidChar)
    (method : Option (List Nat) → DomWriter → DomWriter.Method DomWriter)
    (comes : s.domWriter.Comes (method (some (Utf16.encode s.text)) s.domWriter) (some s.text))
    {k : Nat} (inside : k ≤ s.text.length) :
    ∃ domWriter selection, (do
        let expectedText ← engineText
        applyPatches (method expectedText)
        placeCaretAt k : Method Unit).run s =
          .ok () { s with domWriter, selection := some selection } ∧
      domWriter.Shows (some s.text) ∧ selection.Once ∧
      caretAt { s with domWriter, selection := some selection } k := by
  have ⟨w, patched, shows, _⟩ := comes
  have ⟨selection, placed, once, caret⟩ :=
    placeCaretAt_ok (s := { s with domWriter := w }) shows inside
  refine ⟨w, selection, ?_, shows, once, caret⟩
  have applied : (applyPatches (method (some (Utf16.encode s.text)))).run s =
      .ok () { s with domWriter := w } := by
    rw [applyPatches, run_get_bind, patched]
    rfl
  rw [run_bind_of_ok (engineText_ok resident scalar), run_bind_of_ok applied]
  exact placed

/-! ### The two edits -/

theorem performed_refused {α : Type} {outcome : EStateM.Result String SyncClient α} {message : String}
    (refusal : SyncClient.isRefusal message = true) (threw : outcome = .error message s.sync) :
    (performed outcome).run s = .ok false s := by
  rw [threw, performed, run_modify_bind, if_pos refusal]
  rfl

theorem performed_ok {α : Type} {outcome : EStateM.Result String SyncClient α} {a : α}
    {sync : SyncClient} (returned : outcome = .ok a sync) :
    (performed outcome).run s = .ok true { s with sync } := by
  rw [returned]
  rfl

/-- What a completed edit leaves behind. -/
structure Completed (s s' : InputPipeline) (sync : SyncClient) (t : List Nat) (caret : Nat) : Prop where
  rest : ∃ domWriter selection, s' = { s with sync, domWriter, selection := some selection } ∧
    domWriter.Shows (some t) ∧ selection.Once
  text : s'.text = t
  ws : sync.ws = s.sync.ws
  issued : ∃ e, sync.engine = some e ∧ e.Issued
  caret : s'.caretAt caret

theorem deleteRangeAt_spec (resident : s.sync.engine = some e) (issued : e.Issued)
    (scalar : ∀ v ∈ s.text, v.isValidChar) (shows : s.domWriter.Shows (some s.text))
    (ready : s.sync.ws ≠ some .CONNECTING) {nowMs start count : Nat} (positive : 0 < count)
    (inside : start + count ≤ s.text.length) :
    (¬ s.sync.Admits nowMs ∧
        stateOf ((SyncClient.localDelete nowMs start count).run s.sync) = s.sync ∧
        (deleteRangeAt nowMs start count).run s = .ok () s) ∨
      (s.sync.Admits nowMs ∧ ∃ s', (deleteRangeAt nowMs start count).run s = .ok () s' ∧
        Completed s s' (stateOf ((SyncClient.localDelete nowMs start count).run s.sync))
          (Pieces.splice start count [] s.text) start) := by
  have nonzero : ¬ ((count : Int) ≤ 0) := by omega
  have same := text_of_engine resident
  by_cases admits : s.sync.Admits nowMs
  · have ⟨ops, c', e', ran, ws, resident', issued', visible⟩ :=
      SyncClient.localDelete_ready resident issued start count admits ready
    set s₁ : InputPipeline := { s with sync := c' } with hs₁
    have text₁ : s₁.text = Pieces.splice start count [] s.text := by
      rw [text_of_engine (s := s₁) resident', visible, List.map_append, List.map_take, List.map_drop,
        Pieces.splice, List.append_nil, same]
    have scalar₁ : ∀ v ∈ s₁.text, v.isValidChar := by
      rw [text₁]
      exact DomWriter.scalar_splice scalar (List.forall_mem_nil _) start count
    have comes : s₁.domWriter.Comes (DomWriter.deleteRange count s₁.domWriter start count
        (some (Utf16.encode s₁.text))) (some s₁.text) := by
      have inRange : (WriterCall.deleteRange start count (some (Utf16.encode s₁.text))).InRange
          (some s.text) :=
        ⟨s.text, rfl, Int.natCast_nonneg _, Int.natCast_nonneg _, by omega, fun x member => by
          rw [← Option.some.inj member, text₁]
          rfl⟩
      have enough : (count : Int).toNat ≤ count := Nat.le_refl _
      have called := DomWriter.deleteRange_comes shows inRange enough
      rw [text₁] at called ⊢
      exact called
    have lengthy : start ≤ s₁.text.length := by
      have length := Pieces.length_splice inside
      rw [text₁]
      omega
    obtain ⟨w, selection, displayed, shows', once, caret⟩ :=
      display_ok (s := s₁) resident' scalar₁ (fun expectedText w =>
        DomWriter.deleteRange count w start count expectedText) comes lengthy
    refine Or.inr ⟨admits, { s₁ with domWriter := w, selection := some selection }, ?_, ?_⟩
    · rw [deleteRangeAt, if_neg nonzero, run_get_bind, Int.toNat_natCast,
        run_bind_of_ok (performed_ok ran), if_pos rfl]
      exact displayed
    · rw [ran, stateOf_ok]
      exact ⟨⟨w, selection, rfl, text₁ ▸ shows', once⟩, text₁, ws, ⟨e', resident', issued'⟩, caret⟩
  · rcases SyncClient.localDelete_outcome nowMs resident issued start count with
      ⟨_, message, refusal, threw⟩ | ⟨granted, _⟩
    · refine Or.inl ⟨admits, by rw [threw, stateOf_error], ?_⟩
      rw [deleteRangeAt, if_neg nonzero, run_get_bind, Int.toNat_natCast,
        run_bind_of_ok (performed_refused refusal threw)]
      rfl
    · exact absurd granted admits

theorem insertTextAt_spec (isClusterContinuing : Nat → Bool) (resident : s.sync.engine = some e)
    (issued : e.Issued) (scalar : ∀ v ∈ s.text, v.isValidChar)
    (shows : s.domWriter.Shows (some s.text)) (ready : s.sync.ws ≠ some .CONNECTING) (nowMs start : Nat)
    {string : List Nat} (wellFormed : WellFormed string) (nonempty : Utf16.codePoints string ≠ [])
    (inside : start ≤ s.text.length) :
    (¬ s.sync.Admits nowMs ∧
        (insertTextAt isClusterContinuing nowMs start string).run s = .ok () s) ∨
      (s.sync.Admits nowMs ∧ ∃ s' c', (insertTextAt isClusterContinuing nowMs start string).run s =
          .ok () s' ∧
        Completed s s' c' (Pieces.splice start 0 (Utf16.codePoints string) s.text)
          (start + (Utf16.codePoints string).length)) := by
  have nonzero : ¬ (string.length = 0) := by
    intro empty
    rw [List.length_eq_zero_iff.mp empty] at nonempty
    exact nonempty Utf16.codePoints_nil
  have same := text_of_engine resident
  have reach : start ≤ e.visible.length := by
    rw [same, List.length_map] at inside
    exact inside
  by_cases admits : s.sync.Admits nowMs
  · have ⟨ops, c', e', new, ran, ws, resident', issued', visible, values⟩ :=
      SyncClient.localInsertText_ready isClusterContinuing resident issued reach
        (Utf16.codePoints string) admits ready
    set s₁ : InputPipeline := { s with sync := c' } with hs₁
    have text₁ : s₁.text = Pieces.splice start 0 (Utf16.codePoints string) s.text := by
      rw [text_of_engine (s := s₁) resident', visible, List.map_append, List.map_append, List.map_take,
        List.map_drop, values, Pieces.splice, same, Nat.add_zero]
    have scalar₁ : ∀ v ∈ s₁.text, v.isValidChar := by
      rw [text₁]
      exact DomWriter.scalar_splice scalar wellFormed.2 start 0
    have comes : s₁.domWriter.Comes (s₁.domWriter.insertText start string
        (some (Utf16.encode s₁.text))) (some s₁.text) := by
      have inRange : (WriterCall.insertText start string (some (Utf16.encode s₁.text))).InRange
          (some s.text) :=
        ⟨wellFormed, s.text, rfl, Int.natCast_nonneg _, Int.ofNat_le.mpr inside, fun x member => by
          rw [← Option.some.inj member, text₁]
          rfl⟩
      have called := DomWriter.insertText_comes shows inRange
      rw [text₁] at called ⊢
      exact called
    have lengthy : start + (Utf16.codePoints string).length ≤ s₁.text.length := by
      rw [text₁, Pieces.length_splice_zero inside]
      omega
    obtain ⟨w, selection, displayed, shows', once, caret⟩ :=
      display_ok (s := s₁) resident' scalar₁
        (fun expectedText w => w.insertText start string expectedText) comes lengthy
    refine Or.inr ⟨admits, { s₁ with domWriter := w, selection := some selection }, c', ?_,
      ⟨w, selection, rfl, text₁ ▸ shows', once⟩, text₁, ws, ⟨e', resident', issued'⟩, caret⟩
    rw [insertTextAt, if_neg nonzero, run_get_bind, run_bind_of_ok (performed_ok ran), if_pos rfl]
    exact displayed
  · rcases SyncClient.localInsertText_outcome isClusterContinuing nowMs resident issued reach
      (Utf16.codePoints string) with ⟨_, message, refusal, threw⟩ | ⟨granted, _⟩
    · refine Or.inl ⟨admits, ?_⟩
      rw [insertTextAt, if_neg nonzero, run_get_bind, run_bind_of_ok (performed_refused refusal threw)]
      rfl
    · exact absurd granted admits

/-! ### The handlers -/

/-- An edit is performed, and the DOM still shows the text. -/
structure Performed (s s' : InputPipeline) (nowMs : Nat) (edit : Edit) : Prop where
  edited : s.Edited s' nowMs edit
  agrees : s'.Agrees
  metrics : s'.metrics = s.metrics
  mounted : s'.mounted = s.mounted

theorem Completed.agrees {sync : SyncClient} {caret : Nat} (completed : Completed s s' sync t caret)
    (scalar : ∀ v ∈ t, v.isValidChar) :
    s'.Agrees ∧ s'.sync = sync ∧ s'.metrics = s.metrics ∧ s'.mounted = s.mounted ∧
      s'.domWriter.Shows (some s'.text) := by
  obtain ⟨w, selection, rfl, shows, once⟩ := completed.rest
  have ⟨e, resident, issued⟩ := completed.issued
  have text := completed.text
  rw [← text] at shows scalar
  refine ⟨⟨?_, scalar, ?_, fun _ => shows, ?_⟩, rfl, rfl, rfl, shows⟩
  · intro e' same
    cases resident.symm.trans same
    exact issued
  · intro _
    show sync.engine.isSome = true
    rw [resident]
    rfl
  · intro sel same
    cases same
    exact once

/-- Nothing to do, or nothing that is let through. -/
theorem Agrees.idle (agrees : s.Agrees) {nowMs : Nat} {edit : Edit} (deletes : ¬ s.Deletes nowMs edit)
    (inserts : ¬ s.Inserts nowMs edit) : Performed s s nowMs edit := by
  refine ⟨⟨?_, fun does => absurd does inserts, fun _ does => absurd does deletes,
    fun _ _ => ⟨rfl, rfl, rfl⟩⟩, agrees, rfl, rfl⟩
  rw [if_neg deletes, if_neg inserts, Pieces.splice_zero]

/-- What the deletion of an edit leaves behind. -/
structure Deleted (s s' : InputPipeline) (nowMs : Nat) (edit : Edit) : Prop where
  agrees : s'.Agrees
  metrics : s'.metrics = s.metrics
  mounted : s'.mounted = s.mounted
  sync : s'.sync = s.afterDeletion nowMs edit
  ws : s'.sync.ws = s.sync.ws
  text : s'.text = Pieces.splice edit.start (if s.Deletes nowMs edit then edit.count else 0) [] s.text
  caret : s.Deletes nowMs edit → s'.caretAt edit.start
  idle : ¬ s.Deletes nowMs edit → s' = s

theorem Agrees.delete (agrees : s.Agrees) (mounted : s.mounted = true)
    (ready : s.sync.ws ≠ some .CONNECTING) (nowMs : Nat) (edit : Edit)
    (inside : edit.start + edit.count ≤ s.text.length) :
    ∃ s', (deleteRangeAt nowMs edit.start edit.count).run s = .ok () s' ∧
      Deleted s s' nowMs edit := by
  by_cases nothing : edit.count = 0
  · have without : ¬ s.Deletes nowMs edit := fun deletes => deletes.1.ne' nothing
    refine ⟨s, ?_, agrees, rfl, rfl, ?_, rfl, ?_, fun does => absurd does without, fun _ => rfl⟩
    · rw [deleteRangeAt, if_pos (by omega)]
      rfl
    · rw [afterDeletion, if_neg (by omega)]
    · rw [if_neg without, Pieces.splice_zero]
  · have positive := Nat.pos_of_ne_zero nothing
    have ⟨e, resident⟩ := Option.isSome_iff_exists.mp (agrees.resident mounted)
    rcases deleteRangeAt_spec resident (agrees.issued e resident) agrees.scalar (agrees.shows mounted)
      ready positive inside with ⟨refused, same, ran⟩ | ⟨admits, s', ran, completed⟩
    · have without : ¬ s.Deletes nowMs edit := fun deletes => refused deletes.2
      refine ⟨s, ran, agrees, rfl, rfl, ?_, rfl, ?_, fun does => absurd does without, fun _ => rfl⟩
      · rw [afterDeletion, if_pos positive, same]
      · rw [if_neg without, Pieces.splice_zero]
    · have deletes : s.Deletes nowMs edit := ⟨positive, admits⟩
      have ⟨agrees', sync, metrics, same, _⟩ := completed.agrees
        (DomWriter.scalar_splice agrees.scalar (List.forall_mem_nil _) edit.start edit.count)
      refine ⟨s', ran, agrees', metrics, same, ?_, ?_, ?_, fun _ => completed.caret,
        fun refused => absurd deletes refused⟩
      · rw [afterDeletion, if_pos positive, sync]
      · rw [sync, completed.ws]
      · rw [if_pos deletes, completed.text]

/-- An edit that inserts nothing is over with its deletion. -/
theorem Deleted.performed {nowMs : Nat} {edit : Edit} (deleted : Deleted s s' nowMs edit)
    (without : ¬ s.Inserts nowMs edit) : Performed s s' nowMs edit := by
  refine ⟨⟨?_, fun does => absurd does without, fun _ deletes => deleted.caret deletes,
    fun _ refused => ?_⟩, deleted.agrees, deleted.metrics, deleted.mounted⟩
  · rw [if_neg without, deleted.text]
  · rw [deleted.idle refused]
    exact ⟨rfl, rfl, rfl⟩

/-- An insertion behind the deletion of the same edit. -/
theorem Deleted.insert {nowMs : Nat} {edit : Edit} (deleted : Deleted s s' nowMs edit)
    (mounted : s.mounted = true) (ready : s.sync.ws ≠ some .CONNECTING)
    (isClusterContinuing : Nat → Bool) {string : List Nat} (wellFormed : WellFormed string)
    (inserted : edit.inserted = Utf16.codePoints string)
    (inside : edit.start + edit.count ≤ s.text.length) :
    ∃ s'', (insertTextAt isClusterContinuing nowMs edit.start string).run s' = .ok () s'' ∧
      Performed s s'' nowMs edit := by
  have place : edit.start + (if s.Deletes nowMs edit then edit.count else 0) ≤ s.text.length := by
    split
    · exact inside
    · omega
  have length := Pieces.length_splice place
  rw [← deleted.text] at length
  by_cases empty : string = []
  · refine ⟨s', ?_, deleted.performed fun inserts => inserts.1 ?_⟩
    · rw [insertTextAt, if_pos (List.length_eq_zero_iff.mpr empty)]
      rfl
    · rw [inserted, empty, Utf16.codePoints_nil]
  have nonempty : Utf16.codePoints string ≠ [] := fun none => empty (by
    rw [← wellFormed.encode, none]
    rfl)
  have mounted' := deleted.mounted.trans mounted
  have ⟨e, resident⟩ := Option.isSome_iff_exists.mp (deleted.agrees.resident mounted')
  rcases insertTextAt_spec isClusterContinuing resident (deleted.agrees.issued e resident)
    deleted.agrees.scalar (deleted.agrees.shows mounted') (deleted.ws.symm ▸ ready) nowMs edit.start
    wellFormed nonempty (by omega) with
    ⟨refused, ran⟩ | ⟨admits, s'', c'', ran, completed⟩
  · refine ⟨s', ran, deleted.performed fun inserts => refused ?_⟩
    rw [deleted.sync]
    exact inserts.2
  · have inserts : s.Inserts nowMs edit := by
      refine ⟨inserted ▸ nonempty, ?_⟩
      rw [← deleted.sync]
      exact admits
    have ⟨agrees, _, metrics, same, _⟩ := completed.agrees
      (DomWriter.scalar_splice deleted.agrees.scalar wellFormed.2 edit.start 0)
    refine ⟨s'', ran, ⟨?_, fun _ => inserted ▸ completed.caret, fun refused => absurd inserts refused,
      fun refused => absurd inserts refused⟩, agrees, metrics.trans deleted.metrics,
      same.trans deleted.mounted⟩
    rw [completed.text, deleted.text, if_pos inserts, inserted]
    exact Pieces.splice_insert (by omega) _ _

theorem Agrees.replace (agrees : s.Agrees) (mounted : s.mounted = true)
    (ready : s.sync.ws ≠ some .CONNECTING) (isClusterContinuing : Nat → Bool) (nowMs : Nat)
    {ev : InputEvent} (wellFormed : WellFormed (textForInputType ev))
    (order : (s.resolvedRange ev).start ≤ (s.resolvedRange ev).stop)
    (inside : (s.resolvedRange ev).stop ≤ s.text.length) :
    ∃ s', (replaceRangeThenInsert isClusterContinuing nowMs ev).run s = .ok () s' ∧
      Performed s s' nowMs ⟨(s.resolvedRange ev).start,
        (s.resolvedRange ev).stop - (s.resolvedRange ev).start,
        Utf16.codePoints (textForInputType ev)⟩ := by
  set range := s.resolvedRange ev with hrange
  set edit : Edit := ⟨range.start, range.stop - range.start,
    Utf16.codePoints (textForInputType ev)⟩ with hedit
  have within : edit.start + edit.count ≤ s.text.length := by
    show range.start + (range.stop - range.start) ≤ s.text.length
    omega
  have ⟨s₁, first, deleted⟩ := agrees.delete mounted ready nowMs edit within
  have ⟨s', second, performed⟩ := deleted.insert mounted ready isClusterContinuing wellFormed rfl within
  refine ⟨s', ?_, performed⟩
  rw [replaceRangeThenInsert, run_get_bind, ← hrange]
  by_cases selects : range.start < range.stop
  · rw [if_pos selects, run_bind_of_ok first]
    exact second
  · have nothing : edit.count = 0 := Nat.sub_eq_zero_of_le (Nat.not_lt.mp selects)
    have idle : s₁ = s := deleted.idle fun deletes => deletes.1.ne' nothing
    rw [if_neg selects]
    rw [idle] at second
    exact second

/-- Nothing is found, or the edit of what is found is performed. -/
def Meets (s : InputPipeline) (handler : Method Unit) (nowMs : Nat) : Option Edit → Prop
  | none => handler.run s = .ok () s
  | some edit => ∃ s', handler.run s = .ok () s' ∧ Performed s s' nowMs edit

theorem Agrees.materialized (agrees : s.Agrees) (mounted : s.mounted = true) :
    s.domWriter.materializedText = Utf16.encode s.text := (agrees.shows mounted).rendered.1

/-- A deletion without a text to insert. -/
theorem Agrees.deleteRange (agrees : s.Agrees) (mounted : s.mounted = true)
    (ready : s.sync.ws ≠ some .CONNECTING) (nowMs : Nat) {start stop : Nat}
    (inside : start ≤ stop ∧ stop ≤ s.text.length) :
    ∃ s', (deleteRangeAt nowMs start (stop - start : Nat)).run s = .ok () s' ∧
      Performed s s' nowMs ⟨start, stop - start, []⟩ := by
  have ⟨s', ran, deleted⟩ := agrees.delete mounted ready nowMs ⟨start, stop - start, []⟩ (by
    show start + (stop - start) ≤ s.text.length
    omega)
  exact ⟨s', ran, deleted.performed fun inserts => inserts.1 rfl⟩

/-- A search of the string that is a search of the text. -/
structure Finds (s : InputPipeline) (search : List Nat → Nat → Option TextSpan)
    (found : Nat → Option VisRange) : Prop where
  same : ∀ k ≤ s.text.length, (search (Utf16.encode s.text) (unitsBefore s.text k)).map TextSpan.ends =
    (found k).map fun r => (unitsBefore s.text r.start, unitsBefore s.text r.stop)
  inside : ∀ k ≤ s.text.length, ∀ r ∈ found k, r.start ≤ r.stop ∧ r.stop ≤ s.text.length

theorem Agrees.rangeOrSpan (agrees : s.Agrees) (mounted : s.mounted = true)
    (ready : s.sync.ws ≠ some .CONNECTING) (nowMs : Nat) {range : VisRange}
    (inside : range.start ≤ range.stop ∧ range.stop ≤ s.text.length)
    {search : List Nat → Nat → Option TextSpan} {found : Nat → Option VisRange}
    (finds : Finds s search found) :
    s.Meets (deleteRangeOrSpan nowMs range search) nowMs (rangeOr range found) := by
  rw [deleteRangeOrSpan, rangeOr]
  by_cases selects : range.start < range.stop
  · rw [if_pos selects, if_pos selects]
    exact agrees.deleteRange mounted ready nowMs inside
  · rw [if_neg selects, if_neg selects]
    have place := inside.1.trans inside.2
    have same := finds.same range.start place
    have there : (converted (scalarToUtf16 s.domWriter.materializedText range.start)).run s =
        .ok (unitsBefore s.text range.start) s := by
      rw [agrees.materialized mounted, scalarToUtf16_unitsBefore agrees.scalar place]
      rfl
    cases here : found range.start with
    | none =>
        rw [here, Option.map_none, Option.map_eq_none_iff] at same
        show ((get : Method InputPipeline) >>= _).run s = _
        rw [run_get_bind, run_bind_of_ok there, agrees.materialized mounted, same]
        rfl
    | some r =>
        have ⟨order, within⟩ := finds.inside range.start place r here
        rw [here, Option.map_some] at same
        have ⟨span, searched, ends⟩ := Option.map_eq_some_iff.mp same
        have ⟨start, stop⟩ := Prod.mk.inj ends
        have first : (converted (utf16ToScalar (Utf16.encode s.text) span.utf16Start)).run s =
            .ok r.start s := by
          rw [start, utf16ToScalar_unitsBefore agrees.scalar (order.trans within)]
          rfl
        have second : (converted (utf16ToScalar (Utf16.encode s.text) span.utf16End)).run s =
            .ok r.stop s := by
          rw [stop, utf16ToScalar_unitsBefore agrees.scalar within]
          rfl
        have ⟨s', ran, performed⟩ := agrees.deleteRange mounted ready nowMs ⟨order, within⟩
        refine ⟨s', ?_, performed⟩
        rw [Int.ofNat_sub order] at ran
        show ((get : Method InputPipeline) >>= _).run s = _
        rw [run_get_bind, run_bind_of_ok there, agrees.materialized mounted, searched, deleteSpan,
          run_bind_of_ok first, run_bind_of_ok second]
        exact ran

theorem Agrees.resolved (agrees : s.Agrees) (mounted : s.mounted = true)
    (ready : s.sync.ws ≠ some .CONNECTING) (nowMs : Nat) {ev : InputEvent}
    (inside : (s.resolvedRange ev).start ≤ (s.resolvedRange ev).stop ∧
      (s.resolvedRange ev).stop ≤ s.text.length) :
    s.Meets (deleteResolvedRange nowMs ev) nowMs
      (some ⟨(s.resolvedRange ev).start, (s.resolvedRange ev).stop - (s.resolvedRange ev).start,
        []⟩) := by
  have ⟨s', ran, performed⟩ := agrees.deleteRange mounted ready nowMs inside
  by_cases selects : (s.resolvedRange ev).start < (s.resolvedRange ev).stop
  · refine ⟨s', ?_, performed⟩
    rw [deleteResolvedRange, run_get_bind, if_pos selects]
    exact ran
  · have nothing : (s.resolvedRange ev).stop - (s.resolvedRange ev).start = 0 := by omega
    refine ⟨s, ?_, agrees.idle (fun deletes => deletes.1.ne' nothing) fun inserts => inserts.1 rfl⟩
    rw [deleteResolvedRange, run_get_bind, if_neg selects]
    rfl

/-- The line is deleted from its start up to the caret. -/
theorem Agrees.line (agrees : s.Agrees) (mounted : s.mounted = true)
    (ready : s.sync.ws ≠ some .CONNECTING) (nowMs : Nat) {ev : InputEvent}
    (inside : (s.resolvedRange ev).start ≤ (s.resolvedRange ev).stop ∧
      (s.resolvedRange ev).stop ≤ s.text.length) :
    s.Meets (deleteLineBackward nowMs ev) nowMs
      (rangeOr (s.resolvedRange ev) fun k => some ⟨lineStart s.text k, k⟩) := by
  set range := s.resolvedRange ev with hrange
  have opened : (deleteLineBackward nowMs ev).run s = (if range.start < range.stop then
      deleteRangeAt nowMs range.start (range.stop - range.start : Nat)
    else do
      let text := (← get).domWriter.materializedText
      let caretUtf16 ← converted (scalarToUtf16 text range.start)
      let startScalar ← converted (utf16ToScalar text (lineStartBefore text caretUtf16))
      deleteRangeAt nowMs startScalar ((range.start : Int) - startScalar)).run s := rfl
  rw [rangeOr]
  by_cases selects : range.start < range.stop
  · have ⟨s', ran, performed⟩ := agrees.deleteRange mounted ready nowMs inside
    rw [if_pos selects]
    exact ⟨s', by rw [opened, if_pos selects]; exact ran, performed⟩
  · rw [if_neg selects, Option.map_some]
    have place := inside.1.trans inside.2
    have ⟨start, within, units, counted, positive⟩ := lineStartBefore_eq place
    have there : (converted (scalarToUtf16 (Utf16.encode s.text) range.start)).run s =
        .ok (unitsBefore s.text range.start) s := by
      rw [scalarToUtf16_unitsBefore agrees.scalar place]
      rfl
    have found : (converted (utf16ToScalar (Utf16.encode s.text)
        (lineStartBefore (Utf16.encode s.text) (unitsBefore s.text range.start)))).run s =
          .ok start s := by
      rw [units, utf16ToScalar_unitsBefore agrees.scalar within]
      rfl
    have reached : (deleteLineBackward nowMs ev).run s =
        (deleteRangeAt nowMs start ((range.start : Int) - start)).run s := by
      rw [opened, if_neg selects, run_get_bind, agrees.materialized mounted, run_bind_of_ok there,
        run_bind_of_ok found]
    have order := lineStart_le s.text range.start
    by_cases first : range.start = 0
    · -- nothing is in front of the caret, whatever the search has found
      have none : range.start - lineStart s.text range.start = 0 := by omega
      refine ⟨s, ?_, agrees.idle (fun deletes => deletes.1.ne' none) fun inserts => inserts.1 rfl⟩
      rw [reached, deleteRangeAt, if_pos (by omega)]
      rfl
    · have ⟨s', ran, performed⟩ := agrees.deleteRange mounted ready nowMs ⟨order, place⟩
      refine ⟨s', ?_, performed⟩
      rw [Int.ofNat_sub order] at ran
      rw [reached, positive (Nat.pos_of_ne_zero first)]
      exact ran

/-! ### The searches -/

theorem finds_clusterBefore (segmenter : Segmenter) (scalar : ∀ v ∈ s.text, v.isValidChar) :
    Finds s segmenter.clusterBefore fun k =>
      (Spans.endingAt (segmenter.spans .grapheme s.text) k).map fun span => ⟨span.start, span.stop⟩ := by
  refine ⟨fun k inside => ?_, fun k inside r found => ?_⟩
  · rw [clusterBefore_eq scalar inside, Option.map_map]
    rfl
  · have ⟨span, here, same⟩ := Option.map_eq_some_iff.mp found
    have ⟨less, most⟩ := (spans_eq segmenter scalar .grapheme).2 span (List.mem_of_find?_eq_some here)
    rw [← same]
    exact ⟨less.le, most⟩

theorem finds_clusterAfter (segmenter : Segmenter) (scalar : ∀ v ∈ s.text, v.isValidChar) :
    Finds s segmenter.clusterAfter fun k =>
      (Spans.startingAt (segmenter.spans .grapheme s.text) k).map fun span =>
        ⟨span.start, span.stop⟩ := by
  refine ⟨fun k inside => ?_, fun k inside r found => ?_⟩
  · rw [clusterAfter_eq scalar inside, Option.map_map]
    rfl
  · have ⟨span, here, same⟩ := Option.map_eq_some_iff.mp found
    have ⟨less, most⟩ := (spans_eq segmenter scalar .grapheme).2 span (List.mem_of_find?_eq_some here)
    rw [← same]
    exact ⟨less.le, most⟩

theorem finds_wordBefore (segmenter : Segmenter) (scalar : ∀ v ∈ s.text, v.isValidChar) :
    Finds s segmenter.wordBefore fun k =>
      (Spans.markedBefore (segmenter.spans .word s.text) k).map fun start => ⟨start, k⟩ := by
  refine ⟨fun k inside => ?_, fun k inside r found => ?_⟩
  · rw [wordBefore_eq scalar inside, Option.map_map]
    rfl
  · have ⟨start, here, same⟩ := Option.map_eq_some_iff.mp found
    have ⟨span, member, before, starts⟩ := Spans.markedBefore_spec here
    have ⟨less, _⟩ := (spans_eq segmenter scalar .word).2 span member
    rw [← same]
    exact ⟨by rw [← starts]; exact less.le.trans before, inside⟩

theorem finds_wordAfter (segmenter : Segmenter) (scalar : ∀ v ∈ s.text, v.isValidChar) :
    Finds s segmenter.wordAfter fun k =>
      (Spans.markedAfter (segmenter.spans .word s.text) k).map fun stop => ⟨k, stop⟩ := by
  refine ⟨fun k inside => ?_, fun k inside r found => ?_⟩
  · rw [wordAfter_eq scalar inside, Option.map_map]
    rfl
  · have ⟨stop, here, same⟩ := Option.map_eq_some_iff.mp found
    have ⟨span, member, after, stops⟩ := Spans.markedAfter_spec here
    have ⟨less, most⟩ := (spans_eq segmenter scalar .word).2 span member
    rw [← same]
    exact ⟨by rw [← stops]; exact after.trans less.le, by rw [← stops]; exact most⟩

/-! ### Every event -/

variable {isClusterContinuing : Nat → Bool} {segmenter : Segmenter}

/-- The editor stays in order, and the sentinel counts no error of its own. -/
structure Orderly (s s' : InputPipeline) : Prop where
  agrees : s'.Agrees
  desync_error : s'.metrics.desync_error = s.metrics.desync_error

theorem Agrees.meets (agrees : s.Agrees) {handler : Method Unit} {nowMs : Nat} {edit : Option Edit}
    (meets : s.Meets handler nowMs edit) :
    s.Orderly (stateOf (handler.run s)) ∧ s.Does (stateOf (handler.run s)) nowMs edit := by
  cases edit with
  | none =>
      have same : handler.run s = .ok () s := meets
      rw [same]
      exact ⟨⟨agrees, rfl⟩, rfl, rfl, rfl⟩
  | some edit =>
      have ⟨s', ran, performed⟩ := meets
      rw [ran]
      exact ⟨⟨performed.agrees, congrArg SentinelMetrics.desync_error performed.metrics⟩,
        performed.edited⟩

/-- What is scheduled does not matter. -/
theorem Agrees.scheduled (agrees : s.Agrees) (undoRedo : UndoRedoController) :
    Agrees { s with undoRedo } :=
  ⟨agrees.issued, agrees.scalar, agrees.resident, agrees.shows, agrees.once⟩

theorem Agrees.live_inside (agrees : s.Agrees) (mounted : s.mounted = true) :
    s.liveSelectionRange.start ≤ s.liveSelectionRange.stop ∧
      s.liveSelectionRange.stop ≤ s.text.length := by
  refine range_inside (agrees.shows mounted) fun r member => ?_
  have ⟨sel, here, same⟩ := Option.map_eq_some_iff.mp member
  have ⟨anchor, focus⟩ := agrees.once sel here
  rw [← same, LiveSelection.range]
  split
  · exact ⟨focus, anchor⟩
  · exact ⟨anchor, focus⟩

theorem Agrees.resolved_inside (agrees : s.Agrees) (mounted : s.mounted = true) {ev : InputEvent}
    (once : ∀ range ∈ ev.targetRange, range.startContainer.Once ∧ range.endContainer.Once) :
    (s.resolvedRange ev).start ≤ (s.resolvedRange ev).stop ∧
      (s.resolvedRange ev).stop ≤ s.text.length := by
  rw [resolvedRange, targetRange]
  cases target : ev.targetRange with
  | none => exact agrees.live_inside mounted
  | some range =>
      rw [Option.map_some, Option.getD_some]
      exact range_inside (agrees.shows mounted) fun r same => once r (target ▸ same)

theorem Agrees.dispatch (agrees : s.Agrees) (mounted : s.mounted = true)
    (ready : s.sync.ws ≠ some .CONNECTING) {nowMs : Nat} {ev : InputEvent}
    (wellFormed : WellFormed (textForInputType ev))
    (once : ∀ range ∈ ev.targetRange, range.startContainer.Once ∧ range.endContainer.Once) :
    s.Orderly (stateOf ((InputPipeline.dispatch isClusterContinuing segmenter nowMs ev).run s)) ∧
      s.Does (stateOf ((InputPipeline.dispatch isClusterContinuing segmenter nowMs ev).run s)) nowMs
        (asked segmenter s ev) := by
  have live := agrees.live_inside mounted
  have resolved := agrees.resolved_inside mounted once
  have present : ¬ s.sync.engine.isNone = true := by
    rw [← Option.not_isSome, agrees.resident mounted]
    exact Bool.false_ne_true
  have replaces : s.Meets (replaceRangeThenInsert isClusterContinuing nowMs ev) nowMs
      (some ⟨(s.resolvedRange ev).start, (s.resolvedRange ev).stop - (s.resolvedRange ev).start,
        Utf16.codePoints (textForInputType ev)⟩) :=
    agrees.replace mounted ready isClusterContinuing nowMs wellFormed resolved.1 resolved.2
  have deletes : s.Meets (deleteResolvedRange nowMs ev) nowMs
      (some ⟨(s.resolvedRange ev).start, (s.resolvedRange ev).stop - (s.resolvedRange ev).start, []⟩) :=
    agrees.resolved mounted ready nowMs resolved
  have idle : s.Meets (pure ()) nowMs none := rfl
  have scalar := agrees.scalar
  rw [InputPipeline.dispatch, asked, if_neg present, wanted]
  cases ev.inputType with
  | insertText => exact agrees.meets replaces
  | insertReplacementText => exact agrees.meets replaces
  | insertFromPaste => exact agrees.meets replaces
  | insertFromDrop => exact agrees.meets replaces
  | insertLineBreak => exact agrees.meets replaces
  | insertParagraph => exact agrees.meets replaces
  | deleteByDrag => exact agrees.meets deletes
  | deleteByCut => exact agrees.meets deletes
  | deleteContentBackward =>
      exact agrees.meets (agrees.rangeOrSpan mounted ready nowMs live (finds_clusterBefore segmenter scalar))
  | deleteContentForward =>
      exact agrees.meets (agrees.rangeOrSpan mounted ready nowMs live (finds_clusterAfter segmenter scalar))
  | deleteWordBackward =>
      exact agrees.meets (agrees.rangeOrSpan mounted ready nowMs resolved (finds_wordBefore segmenter scalar))
  | deleteWordForward =>
      exact agrees.meets (agrees.rangeOrSpan mounted ready nowMs resolved (finds_wordAfter segmenter scalar))
  | deleteSoftLineBackward => exact agrees.meets (agrees.line mounted ready nowMs resolved)
  | deleteHardLineBackward => exact agrees.meets (agrees.line mounted ready nowMs resolved)
  | insertCompositionText => exact agrees.meets idle
  | deleteCompositionText => exact agrees.meets idle
  | other name => exact agrees.meets idle
  | historyUndo => exact ⟨⟨agrees.scheduled _, rfl⟩, rfl, rfl, rfl⟩
  | historyRedo => exact ⟨⟨agrees.scheduled _, rfl⟩, rfl, rfl, rfl⟩

theorem Agrees.beforeinput (agrees : s.Agrees) {nowMs : Nat} {ev : InputEvent}
    (undisturbed : s.Undisturbed (.beforeinput nowMs ev))
    (once : ∀ range ∈ ev.targetRange, range.startContainer.Once ∧ range.endContainer.Once) :
    s.Orderly (stateOf ((handleBeforeInput isClusterContinuing segmenter nowMs ev).run s)) ∧
      s.Does (stateOf ((handleBeforeInput isClusterContinuing segmenter nowMs ev).run s)) nowMs
        (asked segmenter s ev) := by
  have ⟨shown, ready, wellFormed⟩ := undisturbed
  have idle : s.Meets (pure ()) nowMs none := rfl
  rw [handleBeforeInput]
  by_cases composed : ev.inputType = .insertCompositionText ∨ ev.inputType = .deleteCompositionText
  · rw [if_pos composed]
    have nothing : asked segmenter s ev = none := by
      rw [asked, wanted]
      rcases composed with type | type <;> rw [type] <;> exact ite_self _
    rw [nothing]
    exact agrees.meets idle
  · rw [if_neg composed, run_get_bind]
    by_cases absent : s.sync.engine.isNone = true
    · rw [if_pos absent, asked, if_pos absent]
      exact agrees.meets idle
    · rw [if_neg absent]
      have mounted : s.mounted = true := by
        rw [← shown, ← Option.not_isNone, Bool.not_eq_true', Bool.eq_false_iff]
        exact absent
      exact agrees.dispatch mounted ready wellFormed once

theorem stateOf_performed {α : Type} (outcome : EStateM.Result String SyncClient α) :
    stateOf ((performed outcome).run s) = { s with sync := stateOf outcome } := by
  cases outcome with
  | ok a sync => rfl
  | error message sync =>
      rw [performed, run_modify_bind]
      by_cases refusal : SyncClient.isRefusal message = true
      · rw [if_pos refusal]
        rfl
      · rw [if_neg refusal]
        rfl

/-- An undo or a redo that leaves the text as it was leaves the DOM right. -/
theorem Agrees.reversed (agrees : s.Agrees) {sync : SyncClient} {undoRedo : UndoRedoController}
    (engine : ∀ e, s.sync.engine = some e → ∃ e', sync.engine = some e' ∧ e'.Issued)
    (absent : s.sync.engine = none → sync = s.sync) (same : text { s with sync } = s.text) :
    Agrees { s with sync, undoRedo } := by
  have kept : text { s with sync, undoRedo } = s.text := same
  refine ⟨fun e' resident' => ?_, kept ▸ agrees.scalar, fun mounted => ?_, fun mounted => ?_,
    agrees.once⟩
  · cases before : s.sync.engine with
    | none =>
        rw [absent before] at resident'
        exact agrees.issued e' resident'
    | some e =>
        have ⟨e₁, here, issued⟩ := engine e before
        cases here.symm.trans resident'
        exact issued
  · have ⟨e, before⟩ := Option.isSome_iff_exists.mp (agrees.resident mounted)
    have ⟨e₁, here, _⟩ := engine e before
    show sync.engine.isSome = true
    rw [here]
    rfl
  · rw [kept]
    exact agrees.shows mounted

theorem Agrees.undoTask (agrees : s.Agrees) {nowMs : Nat} (quiet : s.Undisturbed (.undoTask nowMs)) :
    s.Orderly (stateOf ((InputPipeline.undoTask nowMs).run s)) ∧
      Effect segmenter s (stateOf ((InputPipeline.undoTask nowMs).run s)) (.undoTask nowMs) := by
  have after : stateOf ((InputPipeline.undoTask nowMs).run s) =
      { s with
        sync := stateOf ((SyncClient.undo nowMs).run s.sync)
        undoRedo := { s.undoRedo with pendingUndo := false } } := by
    rw [InputPipeline.undoTask, run_modify_bind, run_get_bind, stateOf_bind_pure, stateOf_performed]
  rw [after]
  refine ⟨⟨agrees.reversed (fun e resident => ?_) (fun absent => ?_) quiet, rfl⟩, rfl, rfl, rfl⟩
  · exact SyncClient.undo_engine resident (agrees.issued e resident) nowMs
  · exact (SyncClient.reversal_absent absent nowMs).1

theorem Agrees.redoTask (agrees : s.Agrees) {nowMs : Nat} (quiet : s.Undisturbed (.redoTask nowMs)) :
    s.Orderly (stateOf ((InputPipeline.redoTask nowMs).run s)) ∧
      Effect segmenter s (stateOf ((InputPipeline.redoTask nowMs).run s)) (.redoTask nowMs) := by
  have after : stateOf ((InputPipeline.redoTask nowMs).run s) =
      { s with
        sync := stateOf ((SyncClient.redo nowMs).run s.sync)
        undoRedo := { s.undoRedo with pendingRedo := false } } := by
    rw [InputPipeline.redoTask, run_modify_bind, run_get_bind, stateOf_bind_pure, stateOf_performed]
  rw [after]
  refine ⟨⟨agrees.reversed (fun e resident => ?_) (fun absent => ?_) quiet, rfl⟩, rfl, rfl, rfl⟩
  · exact SyncClient.redo_engine resident (agrees.issued e resident) nowMs
  · exact (SyncClient.reversal_absent absent nowMs).2

/-! ### Remounts -/

/-- A mount of the engine's text, whatever the DOM has become. -/
theorem mount_ok (scalar : ∀ v ∈ s.text, v.isValidChar) :
    ∃ domWriter, (applyPatches fun w => w.mount (Utf16.encode s.text)).run s =
          .ok () { s with domWriter } ∧
      domWriter.Shows (some s.text) ∧ domWriter.materializedText = Utf16.encode s.text := by
  have ⟨w, mounted, shows, _⟩ := DomWriter.mount_comes s.domWriter (wellFormed_encode scalar)
  rw [Utf16.codePoints_encode scalar] at shows
  refine ⟨w, ?_, shows, shows.rendered.1⟩
  rw [applyPatches, run_get_bind, mounted]
  rfl

theorem clamp_of_shows {w : DomWriter} (shows : w.Shows (some t)) (k : Nat) :
    clamp k w = ((min k t.length : Nat) : Int) := by
  rw [clamp, total_of_shows shows]
  omega

theorem Agrees.synced (agrees : s.Agrees) :
    s.Orderly (stateOf (mountIfNewEngine.run s)) ∧
      Effect segmenter s (stateOf (mountIfNewEngine.run s)) .synced := by
  rw [mountIfNewEngine, run_get_bind]
  by_cases fresh : s.sync.engine.isSome = true ∧ ¬ s.mounted = true
  · have ⟨e, resident⟩ := Option.isSome_iff_exists.mp fresh.1
    have ⟨w, mounted, shows, _⟩ := mount_ok agrees.scalar
    rw [if_pos fresh, run_bind_of_ok (engineText_ok resident agrees.scalar), Option.getD_some,
      run_bind_of_ok mounted]
    exact ⟨⟨⟨agrees.issued, agrees.scalar, fun _ => fresh.1, fun _ => shows, agrees.once⟩, rfl⟩, rfl,
      fresh.1.symm⟩
  · rw [if_neg fresh]
    refine ⟨⟨agrees, rfl⟩, rfl, ?_⟩
    by_cases mounted : s.mounted = true
    · exact mounted.trans (agrees.resident mounted).symm
    · have absent : ¬ s.sync.engine.isSome = true := fun present => fresh ⟨present, mounted⟩
      exact (Bool.eq_false_iff.mpr mounted).trans (Bool.eq_false_iff.mpr absent).symm

/-- The sentinel puts the engine's text back. -/
theorem Agrees.mutation (agrees : s.Agrees) (data : Nat → List Nat) (children : List Nat) :
    s.Orderly (stateOf ((handle isClusterContinuing segmenter (.mutation data children)).run s)) ∧
      Effect segmenter s (stateOf ((handle isClusterContinuing segmenter
        (.mutation data children)).run s)) (.mutation data children) := by
  set s₁ : InputPipeline := { s with domWriter := mutate data children s.domWriter } with hs₁
  have started : (handle isClusterContinuing segmenter (.mutation data children)).run s =
      reconcile.run s₁ := by
    rw [handle, run_modify_bind]
  rw [started, reconcile]
  cases resident : s.sync.engine with
  | none =>
      have read : engineText.run s₁ = .ok none s₁ := engineText_none resident
      have unmounted : ¬ s.mounted = true := fun mounted => by
        have present := agrees.resident mounted
        rw [resident] at present
        cases present
      rw [run_bind_of_ok read]
      refine ⟨⟨⟨agrees.issued, agrees.scalar, agrees.resident, fun mounted => absurd mounted unmounted,
        agrees.once⟩, rfl⟩, rfl, fun present => ?_⟩
      rw [resident] at present
      cases present
  | some e =>
      have text : s₁.text = s.text := rfl
      have scalar : ∀ v ∈ s₁.text, v.isValidChar := agrees.scalar
      have ⟨w, mounted, shows, whole⟩ := mount_ok (s := s₁) scalar
      rw [text] at shows whole
      set s₂ : InputPipeline := { s₁ with domWriter := w } with hs₂
      have least : min s₁.sentinelCaret s.text.length ≤ s.text.length := Nat.min_le_right _ _
      have ⟨position, placed, once, back⟩ := positionAt_ok shows least s₂
      rw [run_bind_of_ok (engineText_ok (s := s₁) resident scalar)]
      dsimp only
      rw [run_get_bind, run_bind_of_ok mounted, run_get_bind]
      show s.Orderly (stateOf ((positionAt w (clamp s₁.sentinelCaret w) >>= _).run s₂)) ∧ Effect segmenter s
        (stateOf ((positionAt w (clamp s₁.sentinelCaret w) >>= _).run s₂)) _
      rw [clamp_of_shows shows, run_bind_of_ok placed, run_modify_bind]
      have silent : ¬ w.materializedText ≠ Utf16.encode s₁.text := not_not.mpr (whole.trans (by rw [text]))
      rw [if_neg silent]
      refine ⟨⟨⟨agrees.issued, agrees.scalar, agrees.resident, fun _ => shows, ?_⟩, rfl⟩, rfl,
        fun _ => ⟨whole, caretAt_collapsed back rfl, rfl⟩⟩
      intro sel same
      cases same
      exact ⟨once, once⟩

/-- The node on the left of an index resolves to the index, or to the start where there is none. -/
theorem resolveCaret_leftOf (sound : e.Sound) (k : Nat) :
    e.resolveCaret (leftOf e.visible k) = (keptIndex e.visible.length k : Nat) := by
  rw [keptIndex]
  by_cases inside : k ≤ e.visible.length
  · have same : leftOf e.visible k = e.resolvePresenceAnchor k := by
      rw [leftOf, resolvePresenceAnchor]
      have place : ((k : Int) - 1).toNat = k - 1 := by omega
      rw [place]
      exact if_congr (by omega) rfl rfl
    rw [if_pos inside, same, sound.resolveCaret_anchor k inside]
  · have none : leftOf e.visible k = none := by
      rw [leftOf, if_neg (by omega), List.getElem?_eq_none (by omega)]
      rfl
    rw [if_neg inside, none]
    rfl

theorem keptIndex_le (length k : Nat) : keptIndex length k ≤ length := by
  rw [keptIndex]
  split
  · assumption
  · exact Nat.zero_le _

/-- Where a captured selection is put back. -/
theorem restoreCaret_ok (sound : e.Sound) (shows : s.domWriter.Shows (some t))
    (length : t.length = e.visible.length) (anchorVis focusVis : Nat) :
    ∃ selection, (restoreCaret ⟨leftOf e.visible anchorVis, leftOf e.visible focusVis⟩ e).run s =
        .ok () { s with selection := some selection } ∧ selection.Once ∧
      domToVis s.domWriter.runs selection.anchor.node selection.anchor.offset =
        .ok (keptIndex t.length anchorVis) ∧
      domToVis s.domWriter.runs selection.focus.node selection.focus.offset =
        .ok (keptIndex t.length focusVis) := by
  have clamped : ∀ k, clamp (e.resolveCaret (leftOf e.visible k)) s.domWriter =
      (keptIndex t.length k : Nat) := fun k => by
    rw [resolveCaret_leftOf sound, ← length, clamp_of_shows shows,
      Nat.min_eq_left (keptIndex_le t.length k)]
  have ⟨anchor, first, once, back⟩ := positionAt_ok shows (keptIndex_le t.length anchorVis) s
  have ⟨focus, second, once', back'⟩ := positionAt_ok shows (keptIndex_le t.length focusVis) s
  refine ⟨⟨anchor, focus, decide ((keptIndex t.length focusVis : Int) < keptIndex t.length anchorVis)⟩, ?_,
    ⟨once, once'⟩, back, back'⟩
  rw [restoreCaret, run_get_bind]
  dsimp only
  rw [clamped, clamped, run_bind_of_ok first, run_bind_of_ok second]
  rfl

/-- A captured selection that is mapped. -/
theorem captureCaret_ok {index : List RenderRun} {sel : LiveSelection} {anchorVis focusVis : Nat}
    (anchor : domToVis index sel.anchor.node sel.anchor.offset = .ok anchorVis)
    (focus : domToVis index sel.focus.node sel.focus.offset = .ok focusVis) :
    captureCaret index e (some sel) =
      some ⟨leftOf e.visible anchorVis, leftOf e.visible focusVis⟩ := by
  rw [captureCaret, Option.bind_some, anchor, focus]

/-- What is captured are nodes on the left of indices. -/
theorem captureCaret_cases (index : List RenderRun) (e : Engine) (selection : Option LiveSelection) :
    captureCaret index e selection = none ∨
      ∃ sel anchorVis focusVis, selection = some sel ∧
        domToVis index sel.anchor.node sel.anchor.offset = .ok anchorVis ∧
        domToVis index sel.focus.node sel.focus.offset = .ok focusVis := by
  cases selection with
  | none => exact Or.inl rfl
  | some sel =>
      cases anchor : domToVis index sel.anchor.node sel.anchor.offset with
      | error message =>
          refine Or.inl ?_
          rw [captureCaret, Option.bind_some, anchor]
      | ok anchorVis =>
          cases focus : domToVis index sel.focus.node sel.focus.offset with
          | error message =>
              refine Or.inl ?_
              rw [captureCaret, Option.bind_some, anchor, focus]
          | ok focusVis => exact Or.inr ⟨sel, anchorVis, focusVis, rfl, anchor, focus⟩

theorem onRemoteOpsApplied_run (resident : s.sync.engine = some e) :
    onRemoteOpsApplied.run s = (if s.mounted then remount e else pure ()).run s := by
  rw [onRemoteOpsApplied, run_get_bind, resident]

theorem Agrees.remoteOps (agrees : s.Agrees) {remote : RemoteClient} (scalar : Scalar remote) :
    s.Orderly (stateOf ((handle isClusterContinuing segmenter (.remoteOps remote)).run s)) ∧
      Effect segmenter s (stateOf ((handle isClusterContinuing segmenter (.remoteOps remote)).run s))
        (.remoteOps remote) := by
  set s₁ : InputPipeline := { s with sync := remote.client } with hs₁
  have started : (handle isClusterContinuing segmenter (.remoteOps remote)).run s =
      onRemoteOpsApplied.run s₁ := by
    rw [handle, run_modify_bind]
  have text₁ : s₁.text = remote.engine.visible.map Node.value := text_of_engine remote.resident
  have scalar₁ : ∀ v ∈ s₁.text, v.isValidChar := text₁ ▸ scalar
  have issued₁ : ∀ e, s₁.sync.engine = some e → e.Issued := fun e resident => by
    cases remote.resident.symm.trans resident
    exact remote.issued
  have present₁ : s₁.sync.engine.isSome = true := by
    rw [hs₁, remote.resident]
    rfl
  rw [started, onRemoteOpsApplied_run (s := s₁) remote.resident]
  by_cases mounted : s.mounted = true
  · have ⟨w, patched, shows, _⟩ := mount_ok (s := s₁) scalar₁
    set s₂ : InputPipeline := { s₁ with domWriter := w } with hs₂
    rw [if_pos mounted, remount, run_get_bind, run_bind_of_ok (engineText_ok remote.resident scalar₁),
      Option.getD_some, run_bind_of_ok patched]
    rcases captureCaret_cases s.domWriter.runs remote.engine s.selection with
      uncaptured | ⟨sel, anchorVis, focusVis, selected, anchor, focus⟩
    · rw [uncaptured]
      refine ⟨⟨⟨issued₁, scalar₁, fun _ => present₁, fun _ => shows, agrees.once⟩, rfl⟩, rfl, ?_⟩
      intro _ sel selected anchorVis focusVis anchor focus
      rw [selected, captureCaret_ok anchor focus] at uncaptured
      cases uncaptured
    · have ⟨selection, restored, once, back, back'⟩ := restoreCaret_ok (s := s₂)
        remote.issued.spec.1 shows (by rw [text₁, List.length_map]) anchorVis focusVis
      rw [selected, captureCaret_ok anchor focus, restoreCaptured, restored]
      refine ⟨⟨⟨issued₁, scalar₁, fun _ => present₁, fun _ => shows, fun sel' same => ?_⟩, rfl⟩, rfl, ?_⟩
      · cases same
        exact once
      · intro _ sel₁ same anchorVis' focusVis' anchor' focus'
        cases selected.symm.trans same
        cases anchor.symm.trans anchor'
        cases focus.symm.trans focus'
        exact ⟨selection, rfl, back, back'⟩
  · rw [if_neg mounted]
    exact ⟨⟨⟨issued₁, scalar₁, fun _ => present₁, fun shown => absurd shown mounted, agrees.once⟩, rfl⟩,
      rfl, fun shown => absurd shown mounted⟩

theorem onKeyDown_scheduled (ke : KeyboardEvent) (s : InputPipeline) :
    ∃ undoRedo, onKeyDown ke s = { s with undoRedo } := by
  rw [onKeyDown]
  split
  · dsimp only
    split
    · exact ⟨_, rfl⟩
    · split
      · exact ⟨_, rfl⟩
      · split <;> exact ⟨_, rfl⟩
  · exact ⟨_, rfl⟩

theorem step_ok {event : EditorEvent} (moved : step isClusterContinuing segmenter s event = .ok s') :
    s.enabled event = .ok () ∧ s' = stateOf ((handle isClusterContinuing segmenter event).run s) := by
  rw [step] at moved
  cases allowed : s.enabled event with
  | error halt =>
      rw [allowed] at moved
      cases moved
  | ok u =>
      rw [allowed] at moved
      exact ⟨rfl, (Except.ok.inj moved).symm⟩

/-- What every event preserves, and what it does. -/
theorem Agrees.step (agrees : s.Agrees) {event : EditorEvent} (undisturbed : s.Undisturbed event)
    (moved : InputPipeline.step isClusterContinuing segmenter s event = .ok s') :
    s.Orderly s' ∧ Effect segmenter s s' event := by
  have ⟨allowed, after⟩ := step_ok moved
  rw [after]
  cases event with
  | beforeinput nowMs ev =>
      refine agrees.beforeinput undisturbed ?_
      by_contra outside
      rw [enabled, if_neg outside] at allowed
      cases allowed
  | keydown ke =>
      have ⟨undoRedo, same⟩ := onKeyDown_scheduled ke s
      have left : stateOf ((handle isClusterContinuing segmenter (.keydown ke)).run s) =
          { s with undoRedo } := same
      rw [left]
      exact ⟨⟨agrees.scheduled undoRedo, rfl⟩, rfl, rfl, rfl⟩
  | undoTask nowMs => exact agrees.undoTask undisturbed
  | redoTask nowMs => exact agrees.redoTask undisturbed
  | remoteOps remote => exact agrees.remoteOps undisturbed
  | replaced remote =>
      refine ⟨⟨⟨fun e resident => ?_, ?_, fun mounted => (Bool.false_ne_true mounted).elim,
        fun mounted => (Bool.false_ne_true mounted).elim, agrees.once⟩, rfl⟩, rfl, rfl, rfl⟩
      · cases remote.resident.symm.trans resident
        exact remote.issued
      · have same : text { s with sync := remote.client, mounted := false } = _ :=
          text_of_engine remote.resident
        exact same ▸ undisturbed
  | synced => exact agrees.synced
  | mutation data children => exact agrees.mutation data children
  | select selection =>
      refine ⟨⟨⟨agrees.issued, agrees.scalar, agrees.resident, agrees.shows, ?_⟩, rfl⟩, rfl, rfl, rfl⟩
      by_contra outside
      have outside' : ¬ ∀ sel ∈ selection, sel.Once := outside
      rw [enabled, if_neg outside'] at allowed
      cases allowed

/-! ### Runs -/

theorem Agrees.displays (agrees : s.Agrees) : s.Displays := fun mounted =>
  agrees.materialized mounted

/-- An editor whose engine is not mounted yet. -/
def unmounted : InputPipeline :=
  ⟨SyncClient.joined 1, ⟨none, [], false, 0⟩, none, ⟨false, false⟩, ⟨0, 0⟩, false⟩

theorem unmounted_agrees : unmounted.Agrees where
  issued e resident := by
    cases resident
    exact ⟨1, Run.Reaches.refl _⟩
  scalar v member := by cases member
  resident mounted := by cases mounted
  shows mounted := by cases mounted
  once sel member := by cases member

/-- A letter that is typed. -/
def letter (unit : Nat) : InputEvent := ⟨.insertText, some [unit], none, none⟩

def backspace : InputEvent := ⟨.deleteContentBackward, none, none, none⟩

end InputPipeline

end ConfluenceEditor
