/-
Local edits, undo and redo.

Every local edit mints identifiers above the clock and applies the minted operations at once
(`Minted`). `localInsert_spec` adds where the new node goes: at a free position immediately after
its left origin; an index outside the document throws (`localInsert_error`). `localDelete_spec` and
`stepUndoRedo_spec` say which operations are minted.
-/

import ConfluenceEditor.Engine.Delivery
import ConfluenceEditor.Library.Throwing

namespace ConfluenceEditor

open Engine

/-- The engine minted `ops`, in this order, and applied them. -/
structure Minted (e e' : Engine) (history ops : List Operation) : Prop where
  built : Built e' (history ++ ops)
  replicaId : e'.replicaId = e.replicaId
  pending : e'.pending = e.pending
  clock : e'.clock = e.clock + ops.length
  fresh : ∀ op ∈ ops, op.id.r = e.replicaId ∧ e.clock < op.id.c
  skeleton : (∀ op ∈ ops, ∀ ins, op ≠ .insert ins) →
    e'.tree.nodes.map Node.toInsert = e.tree.nodes.map Node.toInsert

namespace Built

variable {e e' : Engine} {history : List Operation}

/-- Nothing minted: only the stacks changed. -/
theorem minted_nil (built : Built e history) (undoStack redoStack : List UndoStackEntry) :
    Minted e { e with undoStack, redoStack } history [] where
  built := by rw [List.append_nil]; exact built.congr rfl rfl (le_refl _)
  replicaId := rfl
  pending := rfl
  clock := rfl
  fresh := by simp
  skeleton _ := rfl

theorem fresh_of_clock (built : Built e history) {id : Identifier} (above : e.clock < id.c) :
    e.hasApplied id = false := by
  rw [Bool.eq_false_iff]
  intro known
  obtain ⟨op, member, rfl⟩ := built.hasApplied_iff.mp known
  have := built.clock op member
  omega

/-- Minting an identifier for a ready operation and applying it. -/
theorem mint_spec (built : Built e history) (op : Operation) (id : op.id = e.mint.1)
    (ready : e.ready op = true) :
    ∃ e', e.mint.2.applyKind op = .ok e' ∧ Extended e.mint.2 (e'.markApplied op.id) history op ∧
      ∀ undoStack redoStack,
        Minted e { e'.markApplied op.id with undoStack, redoStack } history [op] := by
  have built' : Built e.mint.2 history := built.congr rfl rfl (Nat.le_succ _)
  have above : e.clock < op.id.c := by rw [id]; exact Nat.lt_succ_self _
  have counter : op.id.c ≤ e.mint.2.clock := by rw [id]; exact le_refl _
  obtain ⟨e', applied, extended⟩ :=
    built'.applyKind_spec op (built.fresh_of_clock above) ready counter
  refine ⟨e', applied, extended, fun undoStack redoStack => ⟨extended.built.congr rfl rfl
    (le_refl _), extended.buffers.replicaId, extended.buffers.pending, ?_, fun x member => ?_,
    fun noInsert => ?_⟩⟩
  · exact extended.clock.trans (max_eq_left counter)
  · rw [List.mem_singleton.mp member]
    exact ⟨by rw [id]; rfl, above⟩
  · have skeleton := extended.skeleton
    cases op with
    | insert ins => exact absurd rfl (noInsert _ (by simp) ins)
    | delete del => exact skeleton
    | undelete und => exact skeleton

/-! ### Inserting -/

/-- An insertion within the document. -/
theorem localInsert_spec (built : Built e history) (k : Nat)
    (inside : k ≤ e.tree.visible.length) (value : Nat) (bind : Bool) :
    ∃ op e' before after, e.localInsert k value bind = .ok (op, e') ∧
      Minted e e' history [.insert op] ∧ op.value = value ∧ op.bind = bind ∧
      e.tree.Position op.parent op.side before after ∧
      e'.tree.nodes = before ++ op.toNode :: after ∧
      e.tree.EndsAtOrigin before k ∧
      e'.undoStack = ⟨.insert op, true⟩ :: e.undoStack ∧ e'.redoStack = [] := by
  obtain ⟨parent, side, before, after, decided, position, origin⟩ :=
    built.wf.decidePlacement_spec k inside
  set op : InsertOperation := ⟨e.mint.1, value, parent, side, bind⟩ with hop
  have ready : e.ready (.insert op) = true := by
    cases named : parent with
    | none => simp [Engine.ready, isOriginPresent, hop, named]
    | some p => simpa [Engine.ready, isOriginPresent, hop, named] using position.ready p named
  obtain ⟨e₁, applied, extended, minted⟩ := built.mint_spec (.insert op) rfl ready
  have absent : e.tree.hasIdentifier op.id = false :=
    built.fresh_node (built.fresh_of_clock (Nat.lt_succ_self _))
  obtain ⟨tree, attached, -, -, list⟩ := position.attach op rfl rfl absent
  have sameTree : e₁.tree = tree := by
    change (do let tree ← e.tree.attach op.id op.value op.bind op.parent op.side
               Except.ok { e.mint.2 with tree }) = .ok e₁ at applied
    rw [attached] at applied
    exact (congrArg Engine.tree (Except.ok.inj applied)).symm
  have applied' : e.mint.2.applyInsert op = .ok e₁ := applied
  refine ⟨op, _, before, after, ?_, minted (⟨.insert op, true⟩ :: e.undoStack) [], rfl, rfl,
    position, by rw [← list, ← sameTree]; rfl, origin, rfl, rfl⟩
  have undoStack : e₁.undoStack = e.undoStack := extended.buffers.undoStack
  rw [localInsert, decided]
  change (do let e₂ ← e.mint.2.applyInsert op
             Except.ok (op, { e₂.markApplied op.id with
               undoStack := ⟨.insert op, true⟩ :: (e₂.markApplied op.id).undoStack
               redoStack := [] })) = _
  rw [applied', ← undoStack]
  rfl

/-- An insertion that returns is within the document. -/
theorem localInsert_inside (wf : e.tree.WF) {visibleIndex : Int} {value : Nat} {bind : Bool}
    {op : InsertOperation} (inserted : e.localInsert visibleIndex value bind = .ok (op, e')) :
    ∃ k : Nat, visibleIndex = k ∧ k ≤ e.tree.visible.length := by
  by_cases outside : visibleIndex < 0 ∨ (e.tree.visible.length : Int) < visibleIndex
  · obtain ⟨message, threw⟩ := wf.decidePlacement_outside outside
    rw [localInsert, threw] at inserted
    cases inserted
  · obtain ⟨k, rfl⟩ := Int.eq_ofNat_of_zero_le (not_lt.mp (not_or.mp outside).1)
    exact ⟨k, rfl, by omega⟩

/-- An insertion outside the document throws. -/
theorem localInsert_error (built : Built e history) (visibleIndex : Int)
    (outside : visibleIndex < 0 ∨ (e.tree.visible.length : Int) < visibleIndex) (value : Nat)
    (bind : Bool) : ∃ message, e.localInsert visibleIndex value bind = .error message := by
  obtain ⟨message, threw⟩ := built.wf.decidePlacement_outside outside
  refine ⟨message, ?_⟩
  rw [localInsert, threw]
  rfl

/-! ### Deleting -/

theorem Minted.cons_deletes {e₁ : Engine} {first : Operation} {rest : List Operation}
    (head : Minted e e₁ history [first]) (tail : Minted e₁ e' (history ++ [first]) rest) :
    Minted e e' history (first :: rest) where
  built := by
    have whole := tail.built
    rwa [List.append_assoc] at whole
  replicaId := tail.replicaId.trans head.replicaId
  pending := tail.pending.trans head.pending
  clock := by
    rw [tail.clock, head.clock]
    simp only [List.length_cons, List.length_nil]
    omega
  fresh op member := by
    rcases List.mem_cons.mp member with rfl | later
    · exact head.fresh op (by simp)
    · obtain ⟨own, above⟩ := tail.fresh op later
      have grown := head.clock
      exact ⟨own.trans head.replicaId, by omega⟩
  skeleton noInsert :=
    (tail.skeleton fun op member => noInsert op (List.mem_cons_of_mem _ member)).trans
      (head.skeleton fun op member => noInsert op (by
        rw [List.mem_singleton.mp member]
        exact List.mem_cons_self))

/-- One iteration that finds a node deletes it. -/
theorem localDeleteLoop_succ (built : Built e history) {visibleIndex : Int} {target : Node}
    (at? : (if visibleIndex < 0 then none else e.tree.visible[visibleIndex.toNat]?) = some target)
    (count : Nat) :
    ∃ op e₁, op.target = target.id ∧ Minted e e₁ history [.delete op] ∧
      e₁.redoStack = e.redoStack ∧ e₁.undoStack = ⟨.delete op, true⟩ :: e.undoStack ∧
      localDeleteLoop visibleIndex (count + 1) e = (do
        let (ops, e₂) ← localDeleteLoop visibleIndex count e₁
        .ok (op :: ops, e₂)) := by
  have visible : target ∈ e.tree.visible := by
    split_ifs at at? with negative
    exact List.mem_of_getElem? at?
  have present : e.ready (.delete ⟨e.mint.1, target.id⟩) = true :=
    built.wf.hasIdentifier_iff.mpr ⟨target, (List.mem_filter.mp visible).1, rfl⟩
  obtain ⟨e₁, applied, extended, minted⟩ :=
    built.mint_spec (.delete ⟨e.mint.1, target.id⟩) rfl present
  set op : DeleteOperation := ⟨e.mint.1, target.id⟩ with hop
  have applied' : e.mint.2.applyDelete op = .ok e₁ := applied
  have undoStack : e₁.undoStack = e.undoStack := extended.buffers.undoStack
  have redoStack : e₁.redoStack = e.redoStack := extended.buffers.redoStack
  refine ⟨op, _, rfl, minted (⟨.delete op, true⟩ :: e.undoStack) e.redoStack, rfl, rfl, ?_⟩
  rw [localDeleteLoop, built.wf.nodeAtVisible_eq, at?]
  change (do
    let e₂ ← e.mint.2.applyDelete op
    let (ops, e₃) ← localDeleteLoop visibleIndex count { e₂.markApplied op.id with
      undoStack := ⟨.delete op, true⟩ :: (e₂.markApplied op.id).undoStack }
    Except.ok (op :: ops, e₃)) = _
  rw [applied', ← undoStack, ← redoStack]
  rfl

theorem localDeleteLoop_spec (visibleIndex : Int) (count : Nat) {e : Engine}
    {history : List Operation} (built : Built e history) :
    ∃ ops e', localDeleteLoop visibleIndex count e = .ok (ops, e') ∧
      Minted e e' history (ops.map .delete) ∧ e'.redoStack = e.redoStack ∧
      ∀ entry ∈ e'.undoStack, entry ∈ e.undoStack ∨ ∃ op, entry = ⟨.delete op, true⟩ := by
  induction count generalizing e history with
  | zero =>
      exact ⟨[], e, rfl, built.minted_nil e.undoStack e.redoStack, rfl, fun _ old => Or.inl old⟩
  | succ count ih =>
      cases at? : (if visibleIndex < 0 then none else e.tree.visible[visibleIndex.toNat]?) with
      | none =>
          refine ⟨[], e, ?_, built.minted_nil e.undoStack e.redoStack, rfl, fun _ old => Or.inl old⟩
          rw [localDeleteLoop, built.wf.nodeAtVisible_eq, at?]
          rfl
      | some target =>
          obtain ⟨op, e₁, -, head, redoStack₁, undoStack₁, unrolled⟩ :=
            built.localDeleteLoop_succ at? count
          obtain ⟨ops, e', looped, tail, redoStack, entries⟩ := ih head.built
          refine ⟨op :: ops, e', ?_, Minted.cons_deletes head tail, redoStack.trans redoStack₁,
            fun entry member => ?_⟩
          · rw [unrolled, looped]
            rfl
          · rcases entries entry member with old | new
            · rw [undoStack₁] at old
              rcases List.mem_cons.mp old with rfl | older
              · exact Or.inr ⟨op, rfl⟩
              · exact Or.inl older
            · exact Or.inr new

theorem localDelete_spec (built : Built e history) (visibleIndex : Int) (count : Nat) :
    ∃ ops e', e.localDelete visibleIndex count = .ok (ops, e') ∧
      Minted e e' history (ops.map .delete) ∧ e'.redoStack = [] ∧
      ∀ entry ∈ e'.undoStack, entry ∈ e.undoStack ∨ ∃ op, entry = ⟨.delete op, true⟩ := by
  have built' : Built { e with redoStack := [] } history := built.congr rfl rfl (le_refl _)
  obtain ⟨ops, e', looped, minted, redoStack, entries⟩ :=
    localDeleteLoop_spec visibleIndex count built'
  exact ⟨ops, e', looped, ⟨minted.built, minted.replicaId, minted.pending, minted.clock,
    minted.fresh, minted.skeleton⟩, redoStack, entries⟩

/-- Deleting one visible node. -/
theorem localDelete_one (built : Built e history) {k : Nat} {target : Node}
    (at? : e.tree.visible[k]? = some target) :
    ∃ op e', e.localDelete k 1 = .ok ([op], e') ∧ op.target = target.id ∧
      Minted e e' history [.delete op] := by
  have built' : Built { e with redoStack := [] } history := built.congr rfl rfl (le_refl _)
  have found : (if (k : Int) < 0 then none else e.tree.visible[(k : Int).toNat]?) = some target := at?
  obtain ⟨op, e', same, minted, -, -, unrolled⟩ := built'.localDeleteLoop_succ found 0
  exact ⟨op, e', unrolled, same, minted.built, minted.replicaId, minted.pending, minted.clock,
    minted.fresh, minted.skeleton⟩

/-! ### Undo and redo -/

/-- The operation that an outcome carries. -/
def operations : UndoOutcome → List Operation
  | .applied op => [op]
  | _ => []

theorem reversal_target {entry : UndoStackEntry} {shape : InverseKind × Identifier}
    (chosen : reversal entry = .ok shape) : shape.2 = entry.op.target := by
  unfold reversal at chosen
  split_ifs at chosen
  · obtain rfl := Except.ok.inj chosen
    cases entry.op <;> rfl
  · cases op : entry.op with
    | insert ins =>
        rw [op] at chosen
        cases chosen
    | delete del =>
        rw [op] at chosen
        obtain rfl := Except.ok.inj chosen
        rfl
    | undelete und =>
        rw [op] at chosen
        obtain rfl := Except.ok.inj chosen
        rfl

@[simp] theorem inverseOperation_id (id target : Identifier) (kind : InverseKind) :
    (inverseOperation id target kind).id = id := by
  cases kind <;> rfl

@[simp] theorem inverseOperation_target (id target : Identifier) (kind : InverseKind) :
    (inverseOperation id target kind).target = target := by
  cases kind <;> rfl

theorem inverseOperation_ne_insert (id target : Identifier) (kind : InverseKind)
    (ins : InsertOperation) : inverseOperation id target kind ≠ .insert ins := by
  cases kind <;> simp [inverseOperation]

/-- An entry whose target is present is reversed: the reversal is minted and applied, and pushed
with the effect that it had on the target's visibility. -/
theorem stepUndoRedo_entry (built : Built e history) {entry : UndoStackEntry} {kind : InverseKind}
    (present : e.tree.hasIdentifier entry.op.target = true)
    (chosen : reversal entry = .ok (kind, entry.op.target)) (rest pushTo : List UndoStackEntry) :
    ∃ e₁, e.stepUndoRedo (entry :: rest) pushTo =
        .ok (.applied (inverseOperation e.mint.1 entry.op.target kind), e₁, rest,
          ⟨inverseOperation e.mint.1 entry.op.target kind,
            (dotOf history entry.op.target).isSome !=
              (dotOf (history ++ [inverseOperation e.mint.1 entry.op.target kind])
                entry.op.target).isSome⟩ :: pushTo) ∧
      ∀ undoStack redoStack, Minted e { e₁ with undoStack, redoStack } history
        [inverseOperation e.mint.1 entry.op.target kind] := by
  set inv := inverseOperation e.mint.1 entry.op.target kind with hinv
  have readyInv : e.ready inv = true := by
    rw [hinv]
    cases kind <;> exact present
  obtain ⟨e₁, applied, extended, minted⟩ := built.mint_spec inv (by simp [hinv]) readyInv
  refine ⟨e₁.markApplied inv.id, ?_, minted⟩
  -- the visibility before and after, read from the two histories
  have flag : ∀ {e : Engine} {history : List Operation} {n : Node}, Built e history →
      e.tree.nodeByIdentifier entry.op.target = some n →
        n.deleted = (dotOf history entry.op.target).isSome := by
    intro e history n built found
    obtain ⟨member, named⟩ := built.wf.nodeByIdentifier_eq_some_iff.mp found
    rw [built.deleted n member, built.deletedBy n member, named]
  obtain ⟨before, foundBefore⟩ := built.exists_target present
  have stays : (e₁.markApplied inv.id).tree.hasIdentifier entry.op.target = true := by
    rw [built.hasIdentifier_iff] at present
    obtain ⟨ins, known, same⟩ := present
    exact extended.built.hasIdentifier_iff.mpr ⟨ins, List.mem_append_left _ known, same⟩
  obtain ⟨after, foundAfter⟩ := extended.built.exists_target stays
  have foundBefore' : e.mint.2.tree.nodeByIdentifier entry.op.target = some before := foundBefore
  unfold stepUndoRedo
  simp only [if_pos present, chosen, bind, Except.bind]
  rw [show e.mint = (e.mint.1, e.mint.2) from rfl]
  simp only [foundBefore', ← hinv, applied, foundAfter, flag built foundBefore,
    flag extended.built foundAfter]

/-- The four ways a step ends. -/
theorem stepUndoRedo_cases (e : Engine) (popFrom pushTo : List UndoStackEntry) :
    (popFrom = [] ∧ e.stepUndoRedo popFrom pushTo = .ok (.empty, e, [], pushTo)) ∨
    ∃ entry rest, popFrom = entry :: rest ∧
      ((e.tree.hasIdentifier entry.op.target = false ∧
          e.stepUndoRedo popFrom pushTo = .ok (.unavailable, e, rest, pushTo)) ∨
        (∃ message, reversal entry = .error message ∧
          e.tree.hasIdentifier entry.op.target = true ∧
          e.stepUndoRedo popFrom pushTo = .error message) ∨
        ∃ kind, reversal entry = .ok (kind, entry.op.target) ∧
          e.tree.hasIdentifier entry.op.target = true) := by
  cases popFrom with
  | nil => exact Or.inl ⟨rfl, rfl⟩
  | cons entry rest =>
      refine Or.inr ⟨entry, rest, rfl, ?_⟩
      by_cases present : e.tree.hasIdentifier entry.op.target = true
      · refine Or.inr ?_
        cases chosen : reversal entry with
        | error message =>
            refine Or.inl ⟨message, rfl, present, ?_⟩
            unfold stepUndoRedo
            simp only [if_pos present, chosen, bind, Except.bind]
        | ok shape =>
            obtain ⟨kind, target⟩ := shape
            obtain rfl : target = entry.op.target := reversal_target chosen
            exact Or.inr ⟨kind, rfl, present⟩
      · refine Or.inl ⟨by simpa using present, ?_⟩
        unfold stepUndoRedo
        simp only [if_neg present]

/-- How a step that returns went: it popped an entry at most, or the reversal of the popped entry was
minted, applied and pushed. -/
inductive Reversed (e : Engine) (popFrom pushTo : List UndoStackEntry) :
    UndoOutcome → Engine → List UndoStackEntry → List UndoStackEntry → Prop
  | idle {outcome : UndoOutcome} (quiet : operations outcome = []) :
      Reversed e popFrom pushTo outcome e popFrom.tail pushTo
  | applied {entry : UndoStackEntry} {rest : List UndoStackEntry} {kind : InverseKind} {e₁ : Engine}
      (effect : Bool) (stack : popFrom = entry :: rest)
      (present : e.tree.hasIdentifier entry.op.target = true)
      (chosen : reversal entry = .ok (kind, entry.op.target))
      (applied : e.mint.2.applyKind (inverseOperation e.mint.1 entry.op.target kind) = .ok e₁) :
      Reversed e popFrom pushTo (.applied (inverseOperation e.mint.1 entry.op.target kind))
        (e₁.markApplied (inverseOperation e.mint.1 entry.op.target kind).id) rest
        (⟨inverseOperation e.mint.1 entry.op.target kind, effect⟩ :: pushTo)

theorem reversed_of_step {popFrom pushTo popFrom' pushTo' : List UndoStackEntry}
    {outcome : UndoOutcome}
    (stepped : e.stepUndoRedo popFrom pushTo = .ok (outcome, e', popFrom', pushTo')) :
    Reversed e popFrom pushTo outcome e' popFrom' pushTo' := by
  cases popFrom with
  | nil =>
      obtain ⟨rfl, rfl, rfl, rfl⟩ := by simpa [stepUndoRedo] using stepped
      exact .idle rfl
  | cons entry rest =>
      unfold stepUndoRedo at stepped
      simp only at stepped
      split_ifs at stepped with present
      · obtain ⟨⟨kind, target⟩, chosen, stepped⟩ := Throwing.ok_of_bind stepped
        obtain rfl : target = entry.op.target := reversal_target chosen
        split at stepped
        · cases stepped
        · obtain ⟨e₁, applied, done⟩ := Throwing.ok_of_bind stepped
          cases done
          exact .applied _ rfl present chosen applied
      · obtain ⟨rfl, rfl, rfl, rfl⟩ := by simpa using stepped
        exact .idle rfl

/-- An undo or redo step mints at most its own reversal. -/
theorem stepUndoRedo_spec (built : Built e history) {popFrom pushTo popFrom' pushTo' :
    List UndoStackEntry} {outcome : UndoOutcome}
    (stepped : e.stepUndoRedo popFrom pushTo = .ok (outcome, e', popFrom', pushTo')) :
    (∀ undoStack redoStack, Minted e { e' with undoStack, redoStack } history
      (operations outcome)) ∧
      ∀ op ∈ operations outcome, ∀ ins, op ≠ .insert ins := by
  cases reversed_of_step stepped with
  | idle quiet =>
      rw [quiet]
      exact ⟨built.minted_nil, nofun⟩
  | applied effect stack present chosen applied =>
      rename_i entry kind e₁
      obtain ⟨e₂, applied', -, minted⟩ := built.mint_spec
        (inverseOperation e.mint.1 entry.op.target kind) (inverseOperation_id ..)
        (by cases kind <;> exact present)
      obtain rfl := Except.ok.inj (applied'.symm.trans applied)
      refine ⟨minted, fun op member => ?_⟩
      rw [List.mem_singleton.mp member]
      exact inverseOperation_ne_insert _ _ kind

theorem undo_spec (built : Built e history) {outcome : UndoOutcome}
    (undone : e.undo = .ok (outcome, e')) :
    Minted e e' history (operations outcome) ∧
      ∀ op ∈ operations outcome, ∀ ins, op ≠ .insert ins := by
  obtain ⟨⟨outcome₁, e₁, popped, pushed⟩, stepped, done⟩ := Throwing.ok_of_bind undone
  obtain ⟨rfl, rfl⟩ := Prod.mk.inj (Except.ok.inj done)
  obtain ⟨minted, noInsert⟩ := built.stepUndoRedo_spec stepped
  exact ⟨minted _ _, noInsert⟩

theorem redo_spec (built : Built e history) {outcome : UndoOutcome}
    (redone : e.redo = .ok (outcome, e')) :
    Minted e e' history (operations outcome) ∧
      ∀ op ∈ operations outcome, ∀ ins, op ≠ .insert ins := by
  obtain ⟨⟨outcome₁, e₁, popped, pushed⟩, stepped, done⟩ := Throwing.ok_of_bind redone
  obtain ⟨rfl, rfl⟩ := Prod.mk.inj (Except.ok.inj done)
  obtain ⟨minted, noInsert⟩ := built.stepUndoRedo_spec stepped
  exact ⟨minted _ _, noInsert⟩

end Built

end ConfluenceEditor
