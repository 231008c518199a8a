/-
The writer of the editor's text nodes.

The definitions follow the source: the runs are patched in place, an oversized run is cut into several
text nodes, and a deletion takes from one run after the other. A text node is an identity with its
data; the root is the list of its children's identities. The loop of `deleteRange` has a number of
rounds that it may take, because nothing but the state of the index bounds it (`deleteLoop`).
-/

import ConfluenceEditor.Binding.RenderIndex

namespace ConfluenceEditor

open UnicodeOffsets RenderIndex

/-- What the writer throws. -/
inductive DomWriterError where
  | notMounted (method : String)
  | range (message : String)
  | inconsistentIndex
  /-- The assertion: the text of the nodes is not that of the caller's oracle. -/
  | oracle (actual expected : List Nat)
  | startVis (actual expected : Nat)
  | scalarLen (actual expected : Nat)
  | utf16Len (actual expected : Nat)
  /-- Not an exception of the source: the loop has not ended yet. -/
  | running
  deriving DecidableEq, Repr

/-- The root element is given by its children; `nextNode` names the next text node. -/
structure DomWriter where
  root : Option (List Nat)
  runs : List RenderRun
  assertionsEnabled : Bool
  nextNode : Nat
  deriving DecidableEq, Repr

namespace DomWriter

/-- A method: nothing is read of a writer whose method threw. -/
abbrev Method (α : Type) : Type := Except DomWriterError α

def new (assertionsEnabled : Bool) : DomWriter := ⟨none, [], assertionsEnabled, 0⟩

/-- `concat(index[*].textNode.data)`. -/
def materializedText (w : DomWriter) : List Nat := w.runs.flatMap fun run => run.textNode.data

/-- The loop of the assertion. -/
def checkRuns : Nat → List RenderRun → Method Unit
  | _, [] => .ok ()
  | expectedVis, run :: runs =>
      if run.startVis ≠ expectedVis then .error (.startVis run.startVis expectedVis)
      else if run.scalarLen ≠ (characters run.textNode.data).length then
        .error (.scalarLen run.scalarLen (characters run.textNode.data).length)
      else if run.utf16Len ≠ run.textNode.data.length then
        .error (.utf16Len run.utf16Len run.textNode.data.length)
      else checkRuns (expectedVis + run.scalarLen) runs

def assertConsistent (w : DomWriter) (expectedOracleText : Option (List Nat)) : Method Unit :=
  if w.assertionsEnabled then
    match expectedOracleText with
    | some expected =>
        if w.materializedText ≠ expected then .error (.oracle w.materializedText expected)
        else checkRuns 0 w.runs
    | none => checkRuns 0 w.runs
  else .ok ()

/-- The strings that a text is cut into. -/
def chunksOf (text : List Nat) : List (List (List Nat)) :=
  Pieces.cut RUN_MAX_SCALARS RUN_MAX_SCALARS_pos (characters text)

/-- One run for each chunk, at the end of the root. -/
def appendChunks (w : DomWriter) : Nat → List (List (List Nat)) → DomWriter
  | _, [] => w
  | vis, chunkScalars :: chunks =>
      appendChunks { w with
        root := w.root.map (· ++ [w.nextNode])
        runs := w.runs ++
          [⟨⟨w.nextNode, chunkScalars.flatten⟩, vis, chunkScalars.length, chunkScalars.flatten.length⟩]
        nextNode := w.nextNode + 1 } (vis + chunkScalars.length) chunks

def appendRunsForText (w : DomWriter) (text : List Nat) (startVis : Nat) : DomWriter :=
  w.appendChunks startVis (chunksOf text)

/-- `insertBefore(node, refNode.nextSibling)`. -/
def insertBehind (refNode node : Nat) : List Nat → List Nat
  | [] => []
  | child :: children =>
      if child = refNode then child :: node :: children
      else child :: insertBehind refNode node children

/-- The runs of the further chunks, whose text nodes are inserted one behind the other. -/
def insertChunks (w : DomWriter) : Nat → Nat → List (List Nat) → DomWriter × List RenderRun
  | _, _, [] => (w, [])
  | refNode, vis, chunkText :: chunks =>
      let scalarLen := (characters chunkText).length
      let (w', newRuns) := insertChunks { w with
        root := w.root.map (insertBehind refNode w.nextNode)
        nextNode := w.nextNode + 1 } w.nextNode (vis + scalarLen) chunks
      (w', ⟨⟨w.nextNode, chunkText⟩, vis, scalarLen, chunkText.length⟩ :: newRuns)

/-- The first chunk stays in the run's own text node. -/
def splitOversizedRun (w : DomWriter) (runIndex : Nat) : DomWriter :=
  match w.runs[runIndex]? with
  | none => w
  | some run =>
      if run.scalarLen ≤ RUN_MAX_SCALARS then w
      else
        match (chunksOf run.textNode.data).map List.flatten with
        | [] => w
        | firstChunk :: chunks =>
            let scalarLen := (characters firstChunk).length
            let (w', newRuns) := w.insertChunks run.textNode.id (run.startVis + scalarLen) chunks
            { w' with runs := w.runs.take runIndex ++
                ⟨⟨run.textNode.id, firstChunk⟩, run.startVis, scalarLen, firstChunk.length⟩ ::
                  newRuns ++ w.runs.drop (runIndex + 1) }

/-- An offset of the index as an offset into its text node. -/
def offsetIn (text : List Nat) (scalarOffset : Int) : Method Nat :=
  match scalarToUtf16 text scalarOffset with
  | .ok offset => .ok offset
  | .error message => .error (.range message)

def mount (w : DomWriter) (initialText : List Nat) : Method DomWriter := do
  let w := { w with root := some [], runs := [] }
  let w := if 0 < initialText.length then w.appendRunsForText initialText 0 else w
  w.assertConsistent none
  .ok w

def shift (scalars : Nat) (run : RenderRun) : RenderRun :=
  { run with startVis := run.startVis + scalars }

def insertText (w : DomWriter) (visOffset : Int) (text : List Nat)
    (expectedText : Option (List Nat)) : Method DomWriter := do
  if w.root = none then .error (.notMounted "DomWriter.insertText: not mounted")
  else if text.length = 0 then .ok w
  else if visOffset < 0 ∨ (totalVisibleLength w.runs : Int) < visOffset then
    .error (.range ("DomWriter.insertText: " ++ toString visOffset ++ " is out of range [0, " ++
      toString (totalVisibleLength w.runs) ++ "]"))
  else if w.runs.length = 0 then
    let w := w.appendRunsForText text 0
    w.assertConsistent expectedText
    .ok w
  else
    match findRunForVis w.runs visOffset.toNat with
    | none => .error .inconsistentIndex
    | some (run, runIndex) =>
        let utf16Offset ← offsetIn run.textNode.data (visOffset - run.startVis)
        let newData := run.textNode.data.take utf16Offset ++ text ++
          run.textNode.data.drop utf16Offset
        let insertedScalarLen := (characters text).length
        let newRun : RenderRun := ⟨⟨run.textNode.id, newData⟩, run.startVis,
          run.scalarLen + insertedScalarLen, newData.length⟩
        let w := { w with runs := w.runs.take runIndex ++ newRun ::
          (w.runs.drop (runIndex + 1)).map (shift insertedScalarLen) }
        let w := if RUN_MAX_SCALARS < newRun.scalarLen then w.splitOversizedRun runIndex else w
        w.assertConsistent expectedText
        .ok w

def renumber : Nat → List RenderRun → List RenderRun
  | _, [] => []
  | vis, run :: runs => { run with startVis := vis } :: renumber (vis + run.scalarLen) runs

def renumberStartVis (w : DomWriter) : DomWriter := { w with runs := renumber 0 w.runs }

/-- One round of the loop: what is left to delete, and the writer. -/
def deleteRound (w : DomWriter) (visOffset remaining : Nat) : Method (Nat × DomWriter) :=
  match findRunForVis w.runs visOffset with
  | none => .error .inconsistentIndex
  | some (run, runIndex) => do
      let localScalar : Int := visOffset - run.startVis
      let deletable := min (run.scalarLen - localScalar.toNat) remaining
      let utf16Start ← offsetIn run.textNode.data localScalar
      let utf16End ← offsetIn run.textNode.data (localScalar + deletable)
      let data := run.textNode.data.take utf16Start ++ run.textNode.data.drop utf16End
      let newRun : RenderRun :=
        ⟨⟨run.textNode.id, data⟩, run.startVis, run.scalarLen - deletable, data.length⟩
      let w := if newRun.scalarLen = 0 then { w with
          root := w.root.map (·.erase run.textNode.id)
          runs := w.runs.eraseIdx runIndex }
        else { w with runs := w.runs.set runIndex newRun }
      .ok (remaining - deletable, w.renumberStartVis)

/-- The loop, for so many rounds at most. -/
def deleteLoop (visOffset : Nat) : Nat → Nat → DomWriter → Method DomWriter
  | _, 0, w => .ok w
  | 0, _ + 1, _ => .error .running
  | rounds + 1, remaining + 1, w => do
      let (left, w) ← w.deleteRound visOffset (remaining + 1)
      deleteLoop visOffset rounds left w

def deleteRange (rounds : Nat) (w : DomWriter) (visOffset count : Int)
    (expectedText : Option (List Nat)) : Method DomWriter := do
  if w.root = none then .error (.notMounted "DomWriter.deleteRange: not mounted")
  else if count ≤ 0 then .ok w
  else if visOffset < 0 ∨ (totalVisibleLength w.runs : Int) < visOffset + count then
    .error (.range ("DomWriter.deleteRange: [" ++ toString visOffset ++ ", " ++
      toString (visOffset + count) ++ ") out of range [0, " ++
      toString (totalVisibleLength w.runs) ++ "]"))
  else
    let w ← deleteLoop visOffset.toNat rounds count.toNat w
    w.assertConsistent expectedText
    .ok w

end DomWriter

/-- A call of the writer. -/
inductive WriterCall where
  | mount (initialText : List Nat)
  | insertText (visOffset : Int) (text : List Nat) (expectedText : Option (List Nat))
  | deleteRange (visOffset count : Int) (expectedText : Option (List Nat))
  deriving DecidableEq, Repr

namespace DomWriter

def perform (rounds : Nat) (w : DomWriter) : WriterCall → Method DomWriter
  | .mount initialText => w.mount initialText
  | .insertText visOffset text expectedText => w.insertText visOffset text expectedText
  | .deleteRange visOffset count expectedText => deleteRange rounds w visOffset count expectedText

end DomWriter

end ConfluenceEditor
