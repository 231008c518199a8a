/-
Compositions of an input method.

The definitions follow the source: a composition captures an anchor when it starts, inserts nothing
while it is open, and puts its text into the document when it ends or when its watchdog fires. The
controller works on the client, the writer of the DOM and the sentinel, and a handler that throws leaves
behind what it did before it threw (`EStateM`). Of the window there are the selection, which comes with
the event, and the timer, which may fire whenever it is armed.
-/

import ConfluenceEditor.Binding.PositionMapping
import ConfluenceEditor.Client.TypedText
import ConfluenceEditor.Engine.Caret

namespace ConfluenceEditor

open RenderIndex PositionMapping Throwing

/-- What a handler throws. -/
inductive CompositionError where
  | sync (message : String)
  | text (message : String)
  | dom (error : DomWriterError)
  | caret (message : String)
  deriving DecidableEq, Repr

/-- A range of the live selection. -/
structure SelectionRange where
  startContainer : DomNode
  startOffset : Nat
  endContainer : DomNode
  endOffset : Nat

/-- A range of visible indices; `stop` is its end. -/
structure VisRange where
  start : Nat
  stop : Nat
  deriving DecidableEq, Repr

/-- The controller with what it works on: the client, the writer, and whether the sentinel observes. -/
structure CompositionController where
  composing : Bool
  anchorId : Option Identifier
  /-- The data of the last `compositionupdate`, as code units. -/
  lastData : List Nat
  watchdogArmed : Bool
  remoteOpsBufferedCount : Nat
  sync : SyncClient
  domWriter : DomWriter
  observing : Bool

namespace CompositionController

abbrev Method (α : Type) : Type := EStateM CompositionError CompositionController α

/-! ### The input pipeline -/

def safeDomToVis (index : List RenderRun) (node : DomNode) (offset : Nat) : Nat :=
  match domToVis index node offset with
  | .ok vis => vis
  | .error _ => totalVisibleLength index

def liveSelectionRange (index : List RenderRun) : Option SelectionRange → VisRange
  | none => ⟨0, 0⟩
  | some range =>
      let a := safeDomToVis index range.startContainer range.startOffset
      let b := safeDomToVis index range.endContainer range.endOffset
      if a ≤ b then ⟨a, b⟩ else ⟨b, a⟩

/-- `MutationSentinel.start` and `stop`. -/
def observe (observing : Bool) : Method Unit := modify fun s => { s with observing }

/-- `engine?.text()`. -/
def engineText : Method (Option (List Nat)) := do
  match (← get).sync.engine with
  | none => return none
  | some engine =>
      match engine.text with
      | .ok text => return some text
      | .error message => throw (.text message)

/-- `sentinel.applyPatches`: a change of the DOM by the writer. -/
def applyPatches (method : DomWriter → DomWriter.Method DomWriter) : Method Unit := do
  match method (← get).domWriter with
  | .ok domWriter => modify fun s => { s with domWriter }
  | .error error => throw (.dom error)

/-- The root element as the writer has built it. -/
def rootElement (w : DomWriter) : DomNode := .element 0 (w.runs.map fun run => .text run.textNode)

def placeCaretAt (visIndex : Int) : Method Unit := do
  let w := (← get).domWriter
  if w.root = none then return ()
  match visToDom w.runs (rootElement w) visIndex with
  | .ok _ => return ()
  | .error message => throw (.caret message)

def deleteRangeAt (nowMs at' count : Nat) : Method Unit := do
  if count = 0 then return ()
  match (SyncClient.localDelete nowMs at' count).run (← get).sync with
  | .error message sync =>
      modify fun s => { s with sync }
      if SyncClient.isRefusal message then return () else throw (.sync message)
  | .ok _ sync =>
      modify fun s => { s with sync }
      let text ← engineText
      applyPatches fun w => DomWriter.deleteRange count w at' count text
      placeCaretAt at'

/-! ### The controller -/

/-- Whether the notification is taken care of. -/
def noteRemoteOpsApplied : Method Bool := do
  if ¬ (← get).composing then return false
  modify fun s => { s with remoteOpsBufferedCount := s.remoteOpsBufferedCount + 1 }
  return true

/-- The fields that a start sets first. -/
def opening (s : CompositionController) : CompositionController :=
  { s with composing := true, lastData := [], remoteOpsBufferedCount := 0 }

def handleCompositionStart (nowMs : Nat) (selection : Option SelectionRange) : Method Unit := do
  let s ← get
  if s.sync.engine.isNone ∨ s.composing then return ()
  set s.opening
  let range := liveSelectionRange s.domWriter.runs selection
  if range.start < range.stop then deleteRangeAt nowMs range.start (range.stop - range.start)
  modify fun s =>
    { s with anchorId := s.sync.engine.bind (·.resolvePresenceAnchor range.start) }
  observe false
  modify fun s => { s with watchdogArmed := true }

def handleCompositionUpdate (data : Option (List Nat)) : Method Unit := do
  if ¬ (← get).composing then return ()
  modify fun s => { s with lastData := data.getD [] }

/-- The insertion of a commit: the scalars that it put in. -/
def insertText (isClusterContinuing : Nat → Bool) (nowMs : Nat) (insertAt : Int)
    (text : List Nat) : Method Nat := do
  if text.length = 0 then return 0
  match (SyncClient.localInsertText isClusterContinuing nowMs insertAt (Utf16.codePoints text)).run
      (← get).sync with
  | .ok _ sync =>
      modify fun s => { s with sync }
      return (Utf16.codePoints text).length
  | .error message sync =>
      modify fun s => { s with sync }
      if SyncClient.isRefusal message then return 0
      else
        observe true
        throw (.sync message)

def commit (isClusterContinuing : Nat → Bool) (nowMs : Nat) (text : List Nat) : Method Unit := do
  let anchorId := (← get).anchorId
  modify fun s => { s with
    watchdogArmed := false, composing := false, anchorId := none, remoteOpsBufferedCount := 0 }
  match (← get).sync.engine with
  | none => observe true
  | some engine =>
      let insertAt := engine.resolveCaret anchorId
      let insertedScalars ← insertText isClusterContinuing nowMs insertAt text
      let shown ← engineText
      applyPatches fun w => w.mount (shown.getD [])
      placeCaretAt (insertAt + insertedScalars)
      observe true

def handleCompositionEnd (isClusterContinuing : Nat → Bool) (nowMs : Nat)
    (data : Option (List Nat)) : Method Unit := do
  let s ← get
  if ¬ s.composing then return ()
  commit isClusterContinuing nowMs (data.getD s.lastData)

/-- The callback of the timer. -/
def watchdogFired (isClusterContinuing : Nat → Bool) (nowMs : Nat) : Method Unit := do
  commit isClusterContinuing nowMs (← get).lastData

/-- The editor's reaction to remote operations in the engine. -/
def onRemoteOpsApplied : Method Unit := do
  match (← get).sync.engine with
  | none => return ()
  | some _ =>
      if ← noteRemoteOpsApplied then return ()
      let shown ← engineText
      applyPatches fun w => w.mount (shown.getD [])

end CompositionController

/-! ### Events -/

/-- A client whose engine has taken in remote operations, such as engines mint. -/
structure RemoteClient where
  client : SyncClient
  engine : Engine
  resident : client.engine = some engine
  issued : engine.Issued

inductive CompositionEvent where
  | compositionstart (nowMs : Nat) (selection : Option SelectionRange)
  | compositionupdate (data : Option (List Nat))
  | compositionend (nowMs : Nat) (data : Option (List Nat))
  | watchdog (nowMs : Nat)
  | remoteOps (remote : RemoteClient)

namespace CompositionController

def handle (isClusterContinuing : Nat → Bool) : CompositionEvent → Method Unit
  | .compositionstart nowMs selection => handleCompositionStart nowMs selection
  | .compositionupdate data => handleCompositionUpdate data
  | .compositionend nowMs data => handleCompositionEnd isClusterContinuing nowMs data
  | .watchdog nowMs => watchdogFired isClusterContinuing nowMs
  | .remoteOps remote => do
      modify fun s => { s with sync := remote.client }
      onRemoteOpsApplied

end CompositionController

end ConfluenceEditor
