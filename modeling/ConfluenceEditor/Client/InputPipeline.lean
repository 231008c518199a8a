/-
The input pipeline.

The definitions follow the source: every `beforeinput` event is turned into calls of the client, the writer
patches the DOM, and the caret is placed. The live selection is part of the state, because the handlers
read it and set it; the browser and the user may move it at any time. Beside the pipeline there are
the undo controller with its two microtasks, the caret tracker that keeps a selection over a remount, and
the sentinel that reverts what others do to the DOM. A handler that throws leaves behind what it did
before it threw.
-/

import ConfluenceEditor.Client.Composition
import ConfluenceEditor.Client.Segmentation

namespace ConfluenceEditor

open UnicodeOffsets RenderIndex PositionMapping Throwing

/-! ### Events of the browser -/

inductive InputType where
  | insertText
  | insertReplacementText
  | insertFromPaste
  | insertFromDrop
  | insertLineBreak
  | insertParagraph
  | deleteByDrag
  | deleteByCut
  | deleteContentBackward
  | deleteContentForward
  | deleteWordBackward
  | deleteWordForward
  | deleteSoftLineBackward
  | deleteHardLineBackward
  | insertCompositionText
  | deleteCompositionText
  | historyUndo
  | historyRedo
  | other (name : String)
  deriving DecidableEq, Repr

/-- A `beforeinput` event; `dataTransfer` is its `text/plain`, and `targetRange` its first target range. -/
structure InputEvent where
  inputType : InputType
  data : Option (List Nat)
  dataTransfer : Option (List Nat)
  targetRange : Option SelectionRange

structure KeyboardEvent where
  ctrlKey : Bool
  metaKey : Bool
  shiftKey : Bool
  key : String
  deriving DecidableEq, Repr

/-- `window.getSelection()`; `backward` says that the focus is in front of the anchor. -/
structure LiveSelection where
  anchor : DomPosition
  focus : DomPosition
  backward : Bool

namespace LiveSelection

/-- `getRangeAt(0)`, in document order. -/
def range (s : LiveSelection) : SelectionRange :=
  if s.backward then ⟨s.focus.node, s.focus.offset, s.anchor.node, s.anchor.offset⟩
  else ⟨s.anchor.node, s.anchor.offset, s.focus.node, s.focus.offset⟩

def collapsed (position : DomPosition) : LiveSelection := ⟨position, position, false⟩

end LiveSelection

/-! ### The state -/

structure UndoRedoController where
  pendingUndo : Bool
  pendingRedo : Bool
  deriving DecidableEq, Repr

structure SentinelMetrics where
  reconciliation : Nat
  desync_error : Nat
  deriving DecidableEq, Repr

/-- The anchors of a captured selection. -/
structure CaretSnapshot where
  anchor : Option Identifier
  focus : Option Identifier
  deriving DecidableEq, Repr

/-- An editor; `mounted` says that the client's engine is the one that was mounted last. -/
structure InputPipeline where
  sync : SyncClient
  domWriter : DomWriter
  selection : Option LiveSelection
  undoRedo : UndoRedoController
  metrics : SentinelMetrics
  mounted : Bool

namespace InputPipeline

abbrev Method (α : Type) : Type := EStateM CompositionError InputPipeline α

/-- The root element as the writer has built it. -/
def rootElement (w : DomWriter) : DomNode := CompositionController.rootElement w

/-- `sync.engine?.text()`. -/
def engineText : Method (Option (List Nat)) := do
  match (← get).sync.engine with
  | none => return none
  | some engine =>
      match engine.text with
      | .ok text => return some text
      | .error message => throw (.text message)

/-- `sentinel.applyPatches`: a change of the DOM by the writer. -/
def applyPatches (method : DomWriter → DomWriter.Method DomWriter) : Method Unit := do
  match method (← get).domWriter with
  | .ok domWriter => modify fun s => { s with domWriter }
  | .error error => throw (.dom error)

/-- `visToDom` with the writer's own index. -/
def positionAt (w : DomWriter) (visIndex : Int) : Method DomPosition :=
  match visToDom w.runs (rootElement w) visIndex with
  | .ok position => return position
  | .error message => throw (.caret message)

def placeCaretAt (visIndex : Int) : Method Unit := do
  let w := (← get).domWriter
  if w.root = none then return ()
  let position ← positionAt w visIndex
  modify fun s => { s with selection := some (.collapsed position) }

/-! ### Ranges -/

def liveSelectionRange (s : InputPipeline) : VisRange :=
  CompositionController.liveSelectionRange s.domWriter.runs (s.selection.map LiveSelection.range)

/-- The event's own range, mapped; without one there is nothing to map. -/
def targetRange (s : InputPipeline) (ev : InputEvent) : Option VisRange :=
  ev.targetRange.map fun range => CompositionController.liveSelectionRange s.domWriter.runs (some range)

def resolvedRange (s : InputPipeline) (ev : InputEvent) : VisRange :=
  (s.targetRange ev).getD s.liveSelectionRange

def textForInputType (ev : InputEvent) : List Nat :=
  match ev.inputType with
  | .insertLineBreak | .insertParagraph => [newline]
  | .insertFromPaste | .insertFromDrop => ev.dataTransfer.getD []
  | _ => ev.data.getD []

/-! ### Edits -/

/-- What an edit of the client leaves behind; a refusal is taken for granted. -/
def performed {α : Type} (outcome : EStateM.Result String SyncClient α) : Method Bool :=
  match outcome with
  | .ok _ sync => do
      modify fun s => { s with sync }
      return true
  | .error message sync => do
      modify fun s => { s with sync }
      if SyncClient.isRefusal message then return false else throw (.sync message)

def insertTextAt (isClusterContinuing : Nat → Bool) (nowMs at' : Nat) (text : List Nat) :
    Method Unit := do
  if text.length = 0 then return ()
  if ← performed ((SyncClient.localInsertText isClusterContinuing nowMs at' (Utf16.codePoints text)).run
      (← get).sync) then
    let expectedText ← engineText
    applyPatches fun w => w.insertText at' text expectedText
    placeCaretAt (at' + (Utf16.codePoints text).length)

def deleteRangeAt (nowMs at' : Nat) (count : Int) : Method Unit := do
  if count ≤ 0 then return ()
  if ← performed ((SyncClient.localDelete nowMs at' count.toNat).run (← get).sync) then
    let expectedText ← engineText
    applyPatches fun w => DomWriter.deleteRange count.toNat w at' count expectedText
    placeCaretAt at'

section Handlers

variable (isClusterContinuing : Nat → Bool) (segmenter : Segmenter)

def replaceRangeThenInsert (nowMs : Nat) (ev : InputEvent) : Method Unit := do
  let range := (← get).resolvedRange ev
  if range.start < range.stop then deleteRangeAt nowMs range.start (range.stop - range.start : Nat)
  insertTextAt isClusterContinuing nowMs range.start (textForInputType ev)

def deleteResolvedRange (nowMs : Nat) (ev : InputEvent) : Method Unit := do
  let range := (← get).resolvedRange ev
  if range.start < range.stop then deleteRangeAt nowMs range.start (range.stop - range.start : Nat)

/-- A conversion of an offset, whose exception leaves the handler. -/
def converted (result : Except String Nat) : Method Nat :=
  match result with
  | .ok offset => return offset
  | .error message => throw (.caret message)

/-- The text from a span's start up to its end is deleted. -/
def deleteSpan (nowMs : Nat) (text : List Nat) : Option TextSpan → Method Unit
  | none => return ()
  | some span => do
      let startScalar ← converted (utf16ToScalar text span.utf16Start)
      let endScalar ← converted (utf16ToScalar text span.utf16End)
      deleteRangeAt nowMs startScalar ((endScalar : Int) - startScalar)

/-- The range if it is not empty, else the span that the search finds at the caret. -/
def deleteRangeOrSpan (nowMs : Nat) (range : VisRange) (search : List Nat → Nat → Option TextSpan) :
    Method Unit := do
  if range.start < range.stop then
    deleteRangeAt nowMs range.start (range.stop - range.start : Nat)
  else
    let text := (← get).domWriter.materializedText
    let caretUtf16 ← converted (scalarToUtf16 text range.start)
    deleteSpan nowMs text (search text caretUtf16)

/-- Only the live selection counts here, never the event's own range. -/
def deleteContentCluster (nowMs : Nat) (search : List Nat → Nat → Option TextSpan) :
    Method Unit := do
  deleteRangeOrSpan nowMs (← get).liveSelectionRange search

def deleteWord (nowMs : Nat) (ev : InputEvent) (search : List Nat → Nat → Option TextSpan) :
    Method Unit := do
  deleteRangeOrSpan nowMs ((← get).resolvedRange ev) search

def deleteLineBackward (nowMs : Nat) (ev : InputEvent) : Method Unit := do
  let range := (← get).resolvedRange ev
  if range.start < range.stop then
    deleteRangeAt nowMs range.start (range.stop - range.start : Nat)
  else
    let text := (← get).domWriter.materializedText
    let caretUtf16 ← converted (scalarToUtf16 text range.start)
    let startScalar ← converted (utf16ToScalar text (lineStartBefore text caretUtf16))
    deleteRangeAt nowMs startScalar ((range.start : Int) - startScalar)

/-! ### Undo and redo -/

def scheduleUndo (s : InputPipeline) : InputPipeline :=
  { s with undoRedo := { s.undoRedo with pendingUndo := true } }

def scheduleRedo (s : InputPipeline) : InputPipeline :=
  { s with undoRedo := { s.undoRedo with pendingRedo := true } }

/-- The callback of the microtask, `runIgnoringGuardErrors` included. -/
def undoTask (nowMs : Nat) : Method Unit := do
  modify fun s => { s with undoRedo := { s.undoRedo with pendingUndo := false } }
  let _ ← performed ((SyncClient.undo nowMs).run (← get).sync)
  return ()

def redoTask (nowMs : Nat) : Method Unit := do
  modify fun s => { s with undoRedo := { s.undoRedo with pendingRedo := false } }
  let _ ← performed ((SyncClient.redo nowMs).run (← get).sync)
  return ()

def onKeyDown (ke : KeyboardEvent) (s : InputPipeline) : InputPipeline :=
  if ke.ctrlKey || ke.metaKey then
    let key := ke.key.toLower
    if key = "z" ∧ ke.shiftKey = true then s.scheduleRedo
    else if key = "z" then s.scheduleUndo
    else if key = "y" ∧ ke.ctrlKey = true ∧ ke.metaKey = false then s.scheduleRedo
    else s
  else s

/-! ### The dispatch -/

/-- The table of input types. -/
def dispatch (nowMs : Nat) (ev : InputEvent) : Method Unit :=
  match ev.inputType with
  | .insertText | .insertReplacementText | .insertFromPaste | .insertFromDrop | .insertLineBreak
  | .insertParagraph => replaceRangeThenInsert isClusterContinuing nowMs ev
  | .deleteByDrag | .deleteByCut => deleteResolvedRange nowMs ev
  | .deleteContentBackward => deleteContentCluster nowMs segmenter.clusterBefore
  | .deleteContentForward => deleteContentCluster nowMs segmenter.clusterAfter
  | .deleteWordBackward => deleteWord nowMs ev segmenter.wordBefore
  | .deleteWordForward => deleteWord nowMs ev segmenter.wordAfter
  | .deleteSoftLineBackward | .deleteHardLineBackward => deleteLineBackward nowMs ev
  | .historyUndo => modify scheduleUndo
  | .historyRedo => modify scheduleRedo
  | .insertCompositionText | .deleteCompositionText | .other _ => return ()

def handleBeforeInput (nowMs : Nat) (ev : InputEvent) : Method Unit := do
  if ev.inputType = .insertCompositionText ∨ ev.inputType = .deleteCompositionText then return ()
  if (← get).sync.engine.isNone then return ()
  dispatch isClusterContinuing segmenter nowMs ev

end Handlers

/-! ### Remounts -/

/-- The visible node on the left of an index, in a list that is traversed once. -/
def leftOf (visible : List Node) (visibleIndex : Nat) : Option Identifier :=
  if visibleIndex ≤ 0 then none else (visible[visibleIndex - 1]?).map Node.id

/-- The anchors of the live selection in the engine; a selection elsewhere is not captured. -/
def captureCaret (index : List RenderRun) (engine : Engine) (selection : Option LiveSelection) :
    Option CaretSnapshot :=
  selection.bind fun sel =>
    match domToVis index sel.anchor.node sel.anchor.offset,
        domToVis index sel.focus.node sel.focus.offset with
    | .ok anchorVis, .ok focusVis =>
        some ⟨leftOf engine.visible anchorVis, leftOf engine.visible focusVis⟩
    | _, _ => none

/-- A visible index, brought into the document. -/
def clamp (visIndex : Int) (w : DomWriter) : Int :=
  max 0 (min visIndex (totalVisibleLength w.runs))

def restoreCaret (snapshot : CaretSnapshot) (engine : Engine) : Method Unit := do
  let w := (← get).domWriter
  let anchorVis := clamp (engine.resolveCaret snapshot.anchor) w
  let focusVis := clamp (engine.resolveCaret snapshot.focus) w
  let anchor ← positionAt w anchorVis
  let focus ← positionAt w focusVis
  modify fun s => { s with selection := some ⟨anchor, focus, decide (focusVis < anchorVis)⟩ }

def restoreCaptured (engine : Engine) : Option CaretSnapshot → Method Unit
  | none => return ()
  | some snapshot => restoreCaret snapshot engine

/-- The selection is captured before the DOM changes, and restored behind it. -/
def remount (engine : Engine) : Method Unit := do
  let s ← get
  let snapshot := captureCaret s.domWriter.runs engine s.selection
  let text ← engineText
  applyPatches fun w => w.mount (text.getD [])
  restoreCaptured engine snapshot

/-- The editor's reaction to remote operations in the engine. -/
def onRemoteOpsApplied : Method Unit := do
  let s ← get
  match s.sync.engine with
  | none => return ()
  | some engine => if s.mounted then remount engine else return ()

/-- The reaction to the state `synced`. -/
def mountIfNewEngine : Method Unit := do
  let s ← get
  if s.sync.engine.isSome ∧ ¬ s.mounted then
    let text ← engineText
    applyPatches fun w => w.mount (text.getD [])
    modify fun s => { s with mounted := true }

/-! ### The sentinel -/

/-- What somebody else makes of the text nodes and of the root's children. -/
def mutate (data : Nat → List Nat) (children : List Nat) (w : DomWriter) : DomWriter :=
  { w with
    root := w.root.map fun _ => children
    runs := w.runs.map fun run => { run with textNode := ⟨run.textNode.id, data run.textNode.id⟩ } }

/-- The place of the caret, or the start when it cannot be mapped. -/
def sentinelCaret (s : InputPipeline) : Nat :=
  match s.selection with
  | none => 0
  | some sel =>
      match domToVis s.domWriter.runs sel.range.startContainer sel.range.startOffset with
      | .ok vis => vis
      | .error _ => 0

/-- The re-render that the sentinel makes of records that it is handed. -/
def reconcile : Method Unit := do
  match ← engineText with
  | none => return ()
  | some text =>
      let visIndex := (← get).sentinelCaret
      applyPatches fun w => w.mount text
      let w := (← get).domWriter
      let position ← positionAt w (clamp visIndex w)
      modify fun s => { s with
        selection := some (.collapsed position)
        metrics := { s.metrics with reconciliation := s.metrics.reconciliation + 1 } }
      if w.materializedText ≠ text then
        modify fun s => { s with
          metrics := { s.metrics with desync_error := s.metrics.desync_error + 1 } }

end InputPipeline

/-! ### Events -/

/-- An event of the editor. A microtask runs after it was scheduled; `replaced` is a reconnect that has put
another engine in, and `mutation` a change of the DOM by somebody else, which the sentinel is told of. -/
inductive EditorEvent where
  | beforeinput (nowMs : Nat) (ev : InputEvent)
  | keydown (ke : KeyboardEvent)
  | undoTask (nowMs : Nat)
  | redoTask (nowMs : Nat)
  | remoteOps (remote : RemoteClient)
  | replaced (remote : RemoteClient)
  | synced
  | mutation (data : Nat → List Nat) (children : List Nat)
  | select (selection : Option LiveSelection)

/-- What cannot happen. -/
inductive EditorHalt where
  | notScheduled
  | notATree
  deriving DecidableEq, Repr

def DomNode.textId : DomNode → Option Nat
  | .text textNode => some textNode.id
  | _ => none

/-- A text node is a child of one element at most, and once. -/
def DomNode.Once : DomNode → Prop
  | .element _ children => (children.filterMap DomNode.textId).Nodup
  | _ => True

instance (node : DomNode) : Decidable node.Once := by
  cases node <;> unfold DomNode.Once <;> infer_instance

/-- The containers of the selection are nodes of a tree. -/
def LiveSelection.Once (s : LiveSelection) : Prop := s.anchor.node.Once ∧ s.focus.node.Once

instance (s : LiveSelection) : Decidable s.Once := inferInstanceAs (Decidable (_ ∧ _))

namespace InputPipeline

def handle (isClusterContinuing : Nat → Bool) (segmenter : Segmenter) : EditorEvent → Method Unit
  | .beforeinput nowMs ev => handleBeforeInput isClusterContinuing segmenter nowMs ev
  | .keydown ke => modify (onKeyDown ke)
  | .undoTask nowMs => undoTask nowMs
  | .redoTask nowMs => redoTask nowMs
  | .remoteOps remote => do
      modify fun s => { s with sync := remote.client }
      onRemoteOpsApplied
  | .replaced remote => modify fun s => { s with sync := remote.client, mounted := false }
  | .synced => mountIfNewEngine
  | .mutation data children => do
      modify fun s => { s with domWriter := mutate data children s.domWriter }
      reconcile
  | .select selection => modify fun s => { s with selection }

/-- Whether an event can happen. -/
def enabled (s : InputPipeline) : EditorEvent → Except EditorHalt Unit
  | .undoTask _ => if s.undoRedo.pendingUndo then .ok () else .error .notScheduled
  | .redoTask _ => if s.undoRedo.pendingRedo then .ok () else .error .notScheduled
  | .beforeinput _ ev =>
      if ∀ range ∈ ev.targetRange, range.startContainer.Once ∧ range.endContainer.Once then .ok ()
      else .error .notATree
  | .select selection => if ∀ sel ∈ selection, sel.Once then .ok () else .error .notATree
  | _ => .ok ()

def step (isClusterContinuing : Nat → Bool) (segmenter : Segmenter) (s : InputPipeline)
    (event : EditorEvent) : Except EditorHalt InputPipeline :=
  match s.enabled event with
  | .ok () => .ok (stateOf ((handle isClusterContinuing segmenter event).run s))
  | .error halt => .error halt

end InputPipeline

end ConfluenceEditor
