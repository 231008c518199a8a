/-
The primitive changes that the engine's methods are made of.

A method changes the tree and the applied set in few ways: an insert is attached, a delete or an
undelete sets the two fields of its target, or a leaf is taken out. `Change` names these ways, and
each method is a path of them (`Moves`). So an invariant of the tree and the applied set is proved
once for a change and then holds after every method.
-/

import ConfluenceEditor.Engine.Revert
import ConfluenceEditor.Library.Throwing
import Mathlib.Logic.Relation

namespace ConfluenceEditor

namespace Engine

/-- One change of the tree and of the set of applied identifiers. -/
inductive Change (t : FugueTree) (applied : List Identifier) :
    FugueTree → List Identifier → Prop
  | idle : Change t applied t applied
  | insert {t' : FugueTree} (op : InsertOperation) (fresh : op.id ∉ applied)
      (attached : t.attach op.id op.value op.bind op.parent op.side = .ok t') :
      Change t applied t' (op.id :: applied)
  | delete {t' : FugueTree} {n : Node} (op : DeleteOperation) (fresh : op.id ∉ applied)
      (found : t.nodeByIdentifier op.target = some n)
      (set : t.setDeleted op.target true (some (laterDelete op.id n.deletedBy)) = .ok t') :
      Change t applied t' (op.id :: applied)
  | undelete {t' : FugueTree} (op : UndeleteOperation) (fresh : op.id ∉ applied)
      (set : t.setDeleted op.target false none = .ok t') : Change t applied t' (op.id :: applied)
  | spared (op : UndeleteOperation) (fresh : op.id ∉ applied) :
      Change t applied t (op.id :: applied)
  | remove {t' : FugueTree} (id : Identifier) (removed : t.tryRemoveLeaf id = some t') :
      Change t applied t' applied

/-- One change, with what it does to the clock. -/
structure Move (e e' : Engine) : Prop where
  change : Change e.tree e.applied e'.tree e'.applied
  replicaId : e'.replicaId = e.replicaId
  clock : e.clock ≤ e'.clock
  counters : ∀ id ∈ e'.applied, id ∈ e.applied ∨ id.c ≤ e'.clock

/-- A path of changes. -/
abbrev Moves : Engine → Engine → Prop := Relation.ReflTransGen Move

variable {e e' : Engine}

theorem Change.applied_mono {t t' : FugueTree} {applied applied' : List Identifier}
    (change : Change t applied t' applied') {id : Identifier} (known : id ∈ applied) :
    id ∈ applied' := by
  cases change with
  | idle => exact known
  | remove => exact known
  | _ => exact List.mem_cons_of_mem _ known

/-- What a change keeps, a path keeps. -/
theorem Moves.keeps {P : Engine → Prop} (moves : Moves e e')
    (kept : ∀ {e e'}, Move e e' → P e → P e') (holds : P e) : P e' := by
  induction moves with
  | refl => exact holds
  | tail _ move ih => exact kept move ih

theorem Moves.applied_mono (moves : Moves e e') {id : Identifier} (known : id ∈ e.applied) :
    id ∈ e'.applied :=
  moves.keeps (P := fun e => id ∈ e.applied) (fun move known => move.change.applied_mono known) known

/-- Neither the tree nor the applied set is touched. -/
theorem move_idle (tree : e'.tree = e.tree) (applied : e'.applied = e.applied)
    (replicaId : e'.replicaId = e.replicaId) (clock : e.clock ≤ e'.clock) : Move e e' where
  change := by
    rw [tree, applied]
    exact .idle
  replicaId := replicaId
  clock := clock
  counters := fun id member => Or.inl (applied ▸ member)

/-- Fields that no change mentions. -/
theorem Moves.with (moves : Moves e e') (pending : List Operation)
    (deleteContext : Identifier → Option DeleteContext)
    (undoStack redoStack : List UndoStackEntry) :
    Moves e { e' with pending, deleteContext, undoStack, redoStack } :=
  moves.tail (move_idle rfl rfl rfl (le_refl _))

theorem attach_ready {t t' : FugueTree} {op : InsertOperation}
    (attached : t.attach op.id op.value op.bind op.parent op.side = .ok t') :
    ∀ p, op.parent = some p → t.hasIdentifier p = true := by
  intro p under
  unfold FugueTree.attach at attached
  simp only [under] at attached
  split at attached
  · cases attached
  · rename_i t₁ rewritten
    by_contra absent
    rw [FugueTree.rewrite, if_neg absent] at rewritten
    cases rewritten

theorem setDeleted_present {t t' : FugueTree} {id : Identifier} {deleted : Bool}
    {deletedBy : Option Identifier} (set : t.setDeleted id deleted deletedBy = .ok t') :
    t.hasIdentifier id = true := by
  by_contra absent
  have missing : t.get? id = none := if_neg absent
  rw [FugueTree.setDeleted, missing] at set
  cases set

/-! ### What a change does to the nodes -/

/-- The node list after a change: an insert adds its node somewhere, the other kinds of change
rewrite the fields of one node or drop one node. -/
inductive Listed (applied : List Identifier) (old : List Node) : List Node → List Identifier → Prop
  | same : Listed applied old old applied
  | spared (id : Identifier) (fresh : id ∉ applied) : Listed applied old old (id :: applied)
  | insert (op : InsertOperation) (fresh : op.id ∉ applied) {before after : List Node}
      (split : old = before ++ after) :
      Listed applied old (before ++ op.toNode :: after) (op.id :: applied)
  | flag (id : Identifier) (fresh : id ∉ applied) {n : Node} {dot : Option Identifier}
      (target : n ∈ old) (named : dot = none ∨ dot = some id ∨ dot = n.deletedBy) :
      Listed applied old (old.map (FugueTree.flag n.id dot.isSome dot)) (id :: applied)
  | remove {before after : List Node} {n : Node} (split : old = before ++ n :: after) :
      Listed applied old (before ++ after) applied

theorem Change.listed {t t' : FugueTree} {applied applied' : List Identifier}
    (change : Change t applied t' applied') (wf : t.WF)
    (known : ∀ n ∈ t.nodes, n.id ∈ applied) : t'.WF ∧ Listed applied t.nodes t'.nodes applied' := by
  cases change with
  | idle => exact ⟨wf, .same⟩
  | spared op fresh => exact ⟨wf, .spared op.id fresh⟩
  | insert op fresh attached =>
      have absent : t.hasIdentifier op.id = false := by
        rw [Bool.eq_false_iff]
        intro present
        obtain ⟨n, member, same⟩ := wf.hasIdentifier_iff.mp present
        exact fresh (same ▸ known n member)
      obtain ⟨t₁, attached₁, wf₁, -, before, after, old, new⟩ :=
        wf.attach_spec op (attach_ready attached) absent
      obtain rfl := Except.ok.inj (attached₁.symm.trans attached)
      refine ⟨wf₁, ?_⟩
      rw [new]
      exact .insert op fresh old
  | delete op fresh found set =>
      rename_i n
      obtain ⟨member, named⟩ := wf.nodeByIdentifier_eq_some_iff.mp found
      obtain ⟨t₁, set₁, wf₁, -, list⟩ := wf.setDeleted_spec true
        (some (laterDelete op.id n.deletedBy)) (setDeleted_present set)
      obtain rfl := Except.ok.inj (set₁.symm.trans set)
      refine ⟨wf₁, ?_⟩
      rw [list, ← named]
      refine @Listed.flag _ _ op.id fresh _ (some (laterDelete op.id n.deletedBy)) member (Or.inr ?_)
      exact (laterDelete_eq_or op.id n.deletedBy).imp (congrArg some) Eq.symm
  | undelete op fresh set =>
      have present := setDeleted_present set
      obtain ⟨t₁, set₁, wf₁, -, list⟩ := wf.setDeleted_spec false none present
      obtain rfl := Except.ok.inj (set₁.symm.trans set)
      obtain ⟨n, member, named⟩ := wf.hasIdentifier_iff.mp present
      refine ⟨wf₁, ?_⟩
      rw [list, ← named]
      exact @Listed.flag _ _ op.id fresh _ none member (Or.inl rfl)
  | remove id removed =>
      obtain ⟨wf₁, before, n, after, -, old, new⟩ := wf.tryRemoveLeaf removed
      refine ⟨wf₁, ?_⟩
      rw [new]
      exact .remove old

/-- Every node is an old one, an old one with other fields, or the new one. -/
theorem Listed.mem {applied applied' : List Identifier} {old new : List Node}
    (listed : Listed applied old new applied') {n : Node} (member : n ∈ new) :
    (∃ m ∈ old, m.toInsert = n.toInsert) ∨ n.id ∈ applied' := by
  cases listed with
  | same => exact Or.inl ⟨n, member, rfl⟩
  | spared => exact Or.inl ⟨n, member, rfl⟩
  | insert op fresh split =>
      rcases List.mem_append.mp member with first | rest
      · exact Or.inl ⟨n, split ▸ List.mem_append_left _ first, rfl⟩
      · rcases List.mem_cons.mp rest with rfl | last
        · exact Or.inr List.mem_cons_self
        · exact Or.inl ⟨n, split ▸ List.mem_append_right _ last, rfl⟩
  | flag id fresh target named =>
      obtain ⟨m, inside, rfl⟩ := List.mem_map.mp member
      exact Or.inl ⟨m, inside, (FugueTree.flag_toInsert ..).symm⟩
  | remove split =>
      refine Or.inl ⟨n, ?_, rfl⟩
      rw [split]
      rcases List.mem_append.mp member with first | last
      · exact List.mem_append_left _ first
      · exact List.mem_append_right _ (List.mem_cons_of_mem _ last)

theorem Listed.applied_mono {applied applied' : List Identifier} {old new : List Node}
    (listed : Listed applied old new applied') {id : Identifier} (known : id ∈ applied) :
    id ∈ applied' := by
  cases listed with
  | same => exact known
  | spared => exact List.mem_cons_of_mem _ known
  | insert => exact List.mem_cons_of_mem _ known
  | flag => exact List.mem_cons_of_mem _ known
  | remove => exact known

theorem Sound.listed (sound : e.Sound) (move : Move e e') :
    Listed e.applied e.tree.nodes e'.tree.nodes e'.applied :=
  (move.change.listed sound.wf sound.known).2

theorem Sound.move (sound : e.Sound) (move : Move e e') : e'.Sound where
  wf := (move.change.listed sound.wf sound.known).1
  known n member := by
    rcases (sound.listed move).mem member with ⟨m, old, same⟩ | here
    · have id : m.id = n.id := congrArg InsertOperation.id same
      exact (sound.listed move).applied_mono (id ▸ sound.known m old)
    · exact here
  clock id member := (move.counters id member).elim
    (fun old => le_trans (sound.clock id old) move.clock) fun here => here

theorem Sound.moves (sound : e.Sound) (moves : Moves e e') : e'.Sound :=
  moves.keeps (fun move sound => sound.move move) sound

/-! ### The methods -/

theorem applyDelete_change {op : DeleteOperation} (fresh : op.id ∉ e.applied)
    (applied : e.applyDelete op = .ok e') : ∃ tree, e' = { e with tree } ∧
      Change e.tree e.applied tree (op.id :: e.applied) := by
  unfold applyDelete at applied
  split at applied
  · cases applied
  · rename_i n found
    obtain ⟨tree, set, done⟩ := Throwing.ok_of_bind applied
    exact ⟨tree, (Except.ok.inj done).symm, .delete op fresh found set⟩

theorem applyUndelete_change {op : UndeleteOperation} (fresh : op.id ∉ e.applied)
    (applied : e.applyUndelete op = .ok e') :
    ∃ tree deleteContext, e' = { e with tree, deleteContext } ∧
      Change e.tree e.applied tree (op.id :: e.applied) := by
  unfold applyUndelete at applied
  split at applied
  · cases applied
  · split at applied
    · exact ⟨e.tree, e.deleteContext, (Except.ok.inj applied).symm, .spared op fresh⟩
    · split_ifs at applied
      · obtain ⟨tree, set, done⟩ := Throwing.ok_of_bind applied
        exact ⟨tree, _, (Except.ok.inj done).symm, .undelete op fresh set⟩
      · exact ⟨e.tree, e.deleteContext, (Except.ok.inj applied).symm, .spared op fresh⟩

/-- The application of a fresh operation by its kind rewrites the tree, and an undelete may forget a
context. -/
theorem applyKind_change {op : Operation} (fresh : op.id ∉ e.applied)
    (applied : e.applyKind op = .ok e') :
    ∃ tree deleteContext, e' = { e with tree, deleteContext } ∧
      Change e.tree e.applied tree (op.id :: e.applied) := by
  cases op with
  | insert op =>
      obtain ⟨tree, attached, done⟩ := Throwing.ok_of_bind applied
      exact ⟨tree, e.deleteContext, (Except.ok.inj done).symm, .insert op fresh attached⟩
  | delete op =>
      obtain ⟨tree, done, change⟩ := applyDelete_change fresh applied
      exact ⟨tree, e.deleteContext, done, change⟩
  | undelete op => exact applyUndelete_change fresh applied

/-- So it is a change, once its identifier is marked. -/
theorem applyKind_move {op : Operation} (fresh : op.id ∉ e.applied) (counter : op.id.c ≤ e.clock)
    (applied : e.applyKind op = .ok e') : Move e (e'.markApplied op.id) := by
  obtain ⟨tree, deleteContext, rfl, change⟩ := applyKind_change fresh applied
  refine ⟨change, rfl, le_refl _, fun id member => ?_⟩
  exact (List.mem_cons.mp member).elim (fun same => Or.inr (same ▸ counter)) Or.inl

theorem doApply_moves {op : Operation} (fresh : op.id ∉ e.applied) (applied : e.doApply op = .ok e') :
    Moves e e' := by
  obtain ⟨e₁, kind, done⟩ := Throwing.ok_of_bind applied
  obtain rfl := Except.ok.inj done
  obtain ⟨counters, noted⟩ := noteCounter_eq (e.observe op.id.c) op.id
  rw [noted] at kind
  set e₀ : Engine := { e.observe op.id.c with maxCounterByReplica := counters } with start
  have begun : Move e e₀ := move_idle rfl rfl rfl (le_max_left ..)
  exact .tail (.single begun) (applyKind_move (e := e₀) fresh (le_max_right ..) kind)

theorem drainPass_moves {offered kept : List Operation} {progressed : Bool}
    (swept : e.drainPass offered = .ok (e', kept, progressed)) : Moves e e' := by
  induction offered generalizing e' kept progressed with
  | nil =>
      obtain ⟨rfl, -⟩ := Prod.mk.inj (Except.ok.inj swept)
      exact .refl
  | cons op offered ih =>
      obtain ⟨⟨e₁, kept₁, progressed₁⟩, first, swept⟩ := Throwing.ok_of_bind swept
      simp only at swept
      split_ifs at swept with known ready
      · obtain ⟨rfl, -⟩ := Prod.mk.inj (Except.ok.inj swept)
        exact ih first
      · obtain ⟨e₂, applied, done⟩ := Throwing.ok_of_bind swept
        obtain ⟨rfl, -⟩ := Prod.mk.inj (Except.ok.inj done)
        exact (ih first).trans (doApply_moves (fun member => known (decide_eq_true member)) applied)
      · obtain ⟨rfl, -⟩ := Prod.mk.inj (Except.ok.inj swept)
        exact ih first

theorem drainLoop_moves (sweeps : Nat) {e : Engine} (drained : drainLoop sweeps e = .ok e') :
    Moves e e' := by
  induction sweeps generalizing e with
  | zero =>
      obtain rfl := Except.ok.inj drained
      exact .refl
  | succ sweeps ih =>
      obtain ⟨⟨e₁, kept, progressed⟩, swept, drained⟩ := Throwing.ok_of_bind drained
      have first := (drainPass_moves swept).with kept e₁.deleteContext e₁.undoStack e₁.redoStack
      simp only at drained
      split_ifs at drained
      · exact first.trans (ih drained)
      · obtain rfl := Except.ok.inj drained
        exact first

theorem applyRemote_moves {op : Operation} {context : Option DeleteContext} {buffered : Bool}
    (applied : e.applyRemote op context = .ok (buffered, e')) : Moves e e' := by
  obtain ⟨contexts, recorded⟩ := Built.recordContext_eq e op context
  rw [applyRemote, recorded] at applied
  set e₀ : Engine := { e with deleteContext := contexts } with start
  have begun : Moves e e₀ := .single (move_idle rfl rfl rfl (le_refl _))
  split_ifs at applied with known ready
  · obtain ⟨-, rfl⟩ := Prod.mk.inj (Except.ok.inj applied)
    exact begun
  · obtain ⟨e₁, done, applied⟩ := Throwing.ok_of_bind applied
    obtain ⟨e₂, drained, applied⟩ := Throwing.ok_of_bind applied
    obtain ⟨-, rfl⟩ := Prod.mk.inj (Except.ok.inj applied)
    have fresh : op.id ∉ e₀.applied := fun member => known (decide_eq_true member)
    exact (begun.trans (doApply_moves fresh done)).trans (drainLoop_moves _ drained)
  · obtain ⟨-, rfl⟩ := Prod.mk.inj (Except.ok.inj applied)
    exact begun.with _ contexts e.undoStack e.redoStack

/-- A minted operation. -/
theorem mint_moves (sound : e.Sound) {op : Operation} (id : op.id = e.mint.1)
    (applied : e.mint.2.applyKind op = .ok e') : Moves e (e'.markApplied op.id) := by
  have fresh : op.id ∉ e.applied := id ▸ sound.mint_fresh
  refine .tail (.single (move_idle (show e.mint.2.tree = e.tree from rfl) rfl rfl (Nat.le_succ _))) ?_
  exact applyKind_move (e := e.mint.2) fresh (le_of_eq (congrArg Identifier.c id)) applied

theorem localInsert_moves (sound : e.Sound) {visibleIndex : Int} {value : Nat} {bind : Bool}
    {op : InsertOperation} (inserted : e.localInsert visibleIndex value bind = .ok (op, e')) :
    Moves e e' := by
  obtain ⟨⟨parent, side⟩, -, inserted⟩ := Throwing.ok_of_bind inserted
  obtain ⟨e₁, applied, done⟩ := Throwing.ok_of_bind inserted
  obtain ⟨-, rfl⟩ := Prod.mk.inj (Except.ok.inj done)
  have minted := mint_moves sound
    (show (Operation.insert ⟨e.mint.1, value, parent, side, bind⟩).id = e.mint.1 from rfl) applied
  exact minted.with e₁.pending e₁.deleteContext _ []

/-- The iterations of `localDelete` that found a node. -/
inductive Deleting : Engine → List DeleteOperation → Engine → Prop
  | done (e : Engine) : Deleting e [] e
  | delete {e e₁ e' : Engine} {target : Identifier} {ops : List DeleteOperation}
      (applied : e.mint.2.applyDelete ⟨e.mint.1, target⟩ = .ok e₁)
      (rest : Deleting { e₁.markApplied e.mint.1 with
        undoStack := ⟨.delete ⟨e.mint.1, target⟩, true⟩ :: e₁.undoStack } ops e') :
      Deleting e (⟨e.mint.1, target⟩ :: ops) e'

theorem deleting_of_loop {visibleIndex : Int} (count : Nat) {e : Engine}
    {ops : List DeleteOperation} (deleted : localDeleteLoop visibleIndex count e = .ok (ops, e')) :
    Deleting e ops e' := by
  induction count generalizing e ops with
  | zero =>
      obtain ⟨rfl, rfl⟩ := Prod.mk.inj (Except.ok.inj deleted)
      exact .done e
  | succ count ih =>
      obtain ⟨found, -, deleted⟩ := Throwing.ok_of_bind deleted
      cases found with
      | none =>
          obtain ⟨rfl, rfl⟩ := Prod.mk.inj (Except.ok.inj deleted)
          exact .done e
      | some target =>
          obtain ⟨e₁, applied, deleted⟩ := Throwing.ok_of_bind deleted
          obtain ⟨⟨ops₁, e₂⟩, rest, done⟩ := Throwing.ok_of_bind deleted
          obtain ⟨rfl, rfl⟩ := Prod.mk.inj (Except.ok.inj done)
          exact .delete applied (ih rest)

/-- One iteration. -/
theorem deleting_moves_one (sound : e.Sound) {e₁ : Engine} {target : Identifier}
    (applied : e.mint.2.applyDelete ⟨e.mint.1, target⟩ = .ok e₁) :
    Moves e { e₁.markApplied e.mint.1 with
      undoStack := ⟨.delete ⟨e.mint.1, target⟩, true⟩ :: e₁.undoStack } := by
  have minted := mint_moves sound
    (show (Operation.delete ⟨e.mint.1, target⟩).id = e.mint.1 from rfl) applied
  exact minted.with e₁.pending e₁.deleteContext
    (⟨.delete ⟨e.mint.1, target⟩, true⟩ :: e₁.undoStack) e₁.redoStack

theorem Deleting.moves {ops : List DeleteOperation} (path : Deleting e ops e') (sound : e.Sound) :
    Moves e e' := by
  induction path with
  | done => exact .refl
  | delete applied rest ih =>
      have first := deleting_moves_one sound applied
      exact first.trans (ih (sound.moves first))

theorem localDelete_moves (sound : e.Sound) {visibleIndex : Int} {count : Nat}
    {ops : List DeleteOperation} (deleted : e.localDelete visibleIndex count = .ok (ops, e')) :
    Moves e e' := by
  have cleared : Moves e { e with redoStack := [] } :=
    .single (move_idle rfl rfl rfl (le_refl _))
  exact cleared.trans ((deleting_of_loop count deleted).moves (sound.moves cleared))

theorem stepUndoRedo_moves (sound : e.Sound) {popFrom pushTo popFrom' pushTo' :
    List UndoStackEntry} {outcome : UndoOutcome}
    (stepped : e.stepUndoRedo popFrom pushTo = .ok (outcome, e', popFrom', pushTo')) :
    Moves e e' := by
  cases Built.reversed_of_step stepped with
  | idle quiet => exact .refl
  | applied effect stack present chosen applied =>
      exact mint_moves sound (Built.inverseOperation_id ..) applied

/-- Any local edit. -/
theorem edit_moves (sound : e.Sound) {call : LocalEdit} {ops : List Operation}
    (edited : e.edit call = .ok (ops, e')) : Moves e e' := by
  cases call with
  | insert visibleIndex value bind =>
      obtain ⟨⟨op, e₁⟩, inserted, done⟩ := Throwing.ok_of_bind edited
      obtain ⟨-, rfl⟩ := Prod.mk.inj (Except.ok.inj done)
      exact localInsert_moves sound inserted
  | delete visibleIndex count =>
      obtain ⟨⟨ops', e₁⟩, deleted, done⟩ := Throwing.ok_of_bind edited
      obtain ⟨-, rfl⟩ := Prod.mk.inj (Except.ok.inj done)
      exact localDelete_moves sound deleted
  | undo =>
      obtain ⟨⟨outcome, e₁⟩, undone, done⟩ := Throwing.ok_of_bind edited
      obtain ⟨-, rfl⟩ := Prod.mk.inj (Except.ok.inj done)
      obtain ⟨⟨outcome₁, e₂, popped, pushed⟩, stepped, done⟩ := Throwing.ok_of_bind undone
      obtain ⟨-, rfl⟩ := Prod.mk.inj (Except.ok.inj done)
      exact (stepUndoRedo_moves sound stepped).with e₂.pending e₂.deleteContext popped pushed
  | redo =>
      obtain ⟨⟨outcome, e₁⟩, redone, done⟩ := Throwing.ok_of_bind edited
      obtain ⟨-, rfl⟩ := Prod.mk.inj (Except.ok.inj done)
      obtain ⟨⟨outcome₁, e₂, popped, pushed⟩, stepped, done⟩ := Throwing.ok_of_bind redone
      obtain ⟨-, rfl⟩ := Prod.mk.inj (Except.ok.inj done)
      exact (stepUndoRedo_moves sound stepped).with e₂.pending e₂.deleteContext pushed popped

theorem tryRevertLocalInsert_moves (e : Engine) (id : Identifier) :
    Moves e (e.tryRevertLocalInsert id).2 := by
  unfold tryRevertLocalInsert
  split
  · rename_i tree removed
    exact .single ⟨.remove id removed, rfl, le_refl _, fun _ member => Or.inl member⟩
  · exact .refl

end Engine

end ConfluenceEditor
