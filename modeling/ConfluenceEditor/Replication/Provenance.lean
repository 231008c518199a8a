/-
Where the nodes of an engine come from.

A remote operation adds at most its own node and the nodes of operations that waited, so a property
of operations that holds of everything in an engine and of what it is offered holds of everything in
it afterwards (`Consists`). A local edit adds nodes with new identifiers, and a deletion adds none.
-/

import ConfluenceEditor.Engine.Calls
import ConfluenceEditor.Library.Spine
import ConfluenceEditor.Replication.Rebuild

namespace ConfluenceEditor

open SidedForest

/-- The parent of a node is in the document. -/
theorem FugueTree.WF.exists_parent {t : FugueTree} (wf : t.WF) {n : Node} (member : n ∈ t.nodes)
    {p : Identifier} (under : n.parent = some p) : ∃ m ∈ t.nodes, m.id = p := by
  have here := member
  rw [← inorder_public] at here ⊢
  rcases List.mem_append.mp here with left | right
  · rcases wf.rows.placedLeft.parent_cases left with top | ⟨m, inside, named⟩
    · rw [top] at under
      cases under
    · exact ⟨m, List.mem_append_left _ inside, Option.some.inj (named.symm.trans under)⟩
  · rcases wf.rows.placedRight.parent_cases right with top | ⟨m, inside, named⟩
    · rw [top] at under
      cases under
    · exact ⟨m, List.mem_append_right _ inside, Option.some.inj (named.symm.trans under)⟩

namespace Engine

/-- Every node of the engine and every operation that waits in it has the property. -/
structure Consists (P : Operation → Prop) (e : Engine) : Prop where
  nodes : ∀ n ∈ e.tree.nodes, P (.insert n.toInsert)
  pending : ∀ op ∈ e.pending, P op

variable {P : Operation → Prop} {e e' : Engine} {op : Operation}

theorem consists_new (P : Operation → Prop) (replicaId : Nat) : Consists P (new replicaId) :=
  ⟨nofun, nofun⟩

theorem Consists.imp {Q : Operation → Prop} (consists : Consists P e) (weaker : ∀ op, P op → Q op) :
    Consists Q e :=
  ⟨fun n member => weaker _ (consists.nodes n member),
    fun op member => weaker _ (consists.pending op member)⟩

/-- Setting the flags of a node keeps what was inserted. -/
theorem setDeleted_nodes {t t' : FugueTree} (wf : t.WF) {target : Identifier} {deleted : Bool}
    {deletedBy : Option Identifier} (set : t.setDeleted target deleted deletedBy = .ok t') {n : Node}
    (member : n ∈ t'.nodes) : ∃ m ∈ t.nodes, m.toInsert = n.toInsert := by
  obtain ⟨t₁, set₁, -, -, list⟩ := wf.setDeleted_spec deleted deletedBy (setDeleted_present set)
  obtain rfl := Except.ok.inj (set₁.symm.trans set)
  rw [list] at member
  obtain ⟨m, inside, rfl⟩ := List.mem_map.mp member
  exact ⟨m, inside, (FugueTree.flag_toInsert ..).symm⟩

theorem applyDelete_nodes (sound : e.Sound) {del : DeleteOperation}
    (applied : e.applyDelete del = .ok e') {n : Node} (member : n ∈ e'.tree.nodes) :
    ∃ m ∈ e.tree.nodes, m.toInsert = n.toInsert := by
  unfold applyDelete at applied
  split at applied
  · cases applied
  · obtain ⟨tree, set, done⟩ := Throwing.ok_of_bind applied
    obtain rfl := Except.ok.inj done
    exact setDeleted_nodes sound.wf set member

theorem applyUndelete_nodes (sound : e.Sound) {und : UndeleteOperation}
    (applied : e.applyUndelete und = .ok e') {n : Node} (member : n ∈ e'.tree.nodes) :
    ∃ m ∈ e.tree.nodes, m.toInsert = n.toInsert := by
  unfold applyUndelete at applied
  split at applied
  · cases applied
  · split at applied
    · obtain rfl := Except.ok.inj applied
      exact ⟨n, member, rfl⟩
    · split_ifs at applied
      · obtain ⟨tree, set, done⟩ := Throwing.ok_of_bind applied
        obtain rfl := Except.ok.inj done
        exact setDeleted_nodes sound.wf set member
      · obtain rfl := Except.ok.inj applied
        exact ⟨n, member, rfl⟩

/-- Every node is an old one, or the one that is inserted. -/
theorem applyKind_nodes (sound : e.Sound) (fresh : op.id ∉ e.applied)
    (applied : e.applyKind op = .ok e') {n : Node} (member : n ∈ e'.tree.nodes) :
    (∃ m ∈ e.tree.nodes, m.toInsert = n.toInsert) ∨ op = .insert n.toInsert := by
  cases op with
  | insert op =>
      obtain ⟨tree, attached, done⟩ := Throwing.ok_of_bind applied
      obtain rfl := Except.ok.inj done
      obtain ⟨tree', attached', -, -, before, after, old, new⟩ :=
        sound.wf.attach_spec op (attach_ready attached) (sound.fresh_node fresh)
      obtain rfl := Except.ok.inj (attached'.symm.trans attached)
      have inside : n ∈ before ++ op.toNode :: after := new ▸ member
      rcases List.mem_append.mp inside with first | rest
      · exact Or.inl ⟨n, old ▸ List.mem_append_left _ first, rfl⟩
      · rcases List.mem_cons.mp rest with rfl | last
        · exact Or.inr rfl
        · exact Or.inl ⟨n, old ▸ List.mem_append_right _ last, rfl⟩
  | delete del => exact Or.inl (applyDelete_nodes sound applied member)
  | undelete und => exact Or.inl (applyUndelete_nodes sound applied member)

theorem doApply_nodes (sound : e.Sound) (nodes : ∀ n ∈ e.tree.nodes, P (.insert n.toInsert))
    (offered : P op) (fresh : op.id ∉ e.applied) (applied : e.doApply op = .ok e') :
    ∀ n ∈ e'.tree.nodes, P (.insert n.toInsert) := by
  intro n member
  obtain ⟨e₁, kind, done⟩ := Throwing.ok_of_bind applied
  obtain rfl := Except.ok.inj done
  obtain ⟨counters, noted⟩ := noteCounter_eq (e.observe op.id.c) op.id
  rw [noted] at kind
  have sound₀ : Sound { e.observe op.id.c with maxCounterByReplica := counters } :=
    sound.congr rfl rfl (le_max_left ..)
  rcases applyKind_nodes sound₀ fresh kind member with ⟨m, old, same⟩ | rfl
  · exact same ▸ nodes m old
  · exact offered

section Keeps

variable {Q : Engine → Prop}
  (ignores : ∀ (e : Engine) pending contexts, Q e → Q { e with pending, deleteContext := contexts })
  (applies : ∀ (e e' : Engine) op, e.Sound → Q e → P op → op.id ∉ e.applied →
    e.doApply op = .ok e' → Q e')

include applies

theorem keeps_drainPass (sound : e.Sound) {offered kept : List Operation}
    (given : ∀ op ∈ offered, P op) (holds : Q e) {progressed : Bool}
    (swept : e.drainPass offered = .ok (e', kept, progressed)) : Q e' := by
  induction offered generalizing e' kept progressed with
  | nil =>
      obtain ⟨rfl, -⟩ := Prod.mk.inj (Except.ok.inj swept)
      exact holds
  | cons op offered ih =>
      obtain ⟨⟨e₁, kept₁, progressed₁⟩, first, swept⟩ := Throwing.ok_of_bind swept
      have earlier := ih (fun op member => given op (List.mem_cons_of_mem _ member)) first
      simp only at swept
      split_ifs at swept with known ready
      · obtain ⟨rfl, -⟩ := Prod.mk.inj (Except.ok.inj swept)
        exact earlier
      · obtain ⟨e₂, applied, done⟩ := Throwing.ok_of_bind swept
        obtain ⟨rfl, -⟩ := Prod.mk.inj (Except.ok.inj done)
        exact applies e₁ e₂ op (sound.moves (drainPass_moves first)) earlier
          (given op List.mem_cons_self) (fun member => known (decide_eq_true member)) applied
      · obtain ⟨rfl, -⟩ := Prod.mk.inj (Except.ok.inj swept)
        exact earlier

include ignores

theorem keeps_drainLoop (sweeps : Nat) {e : Engine} (sound : e.Sound)
    (waiting : ∀ op ∈ e.pending, P op) (holds : Q e) (drained : drainLoop sweeps e = .ok e') :
    Q e' := by
  induction sweeps generalizing e with
  | zero =>
      obtain rfl := Except.ok.inj drained
      exact holds
  | succ sweeps ih =>
      obtain ⟨⟨e₁, kept, progressed⟩, swept, drained⟩ := Throwing.ok_of_bind drained
      have first := ignores e₁ kept e₁.deleteContext
        (keeps_drainPass applies sound waiting holds swept)
      have fewer : ∀ op ∈ kept, P op := fun op member =>
        waiting op ((drainPass_pending swept).1.subset member)
      have sound₁ : Sound { e₁ with pending := kept } :=
        (sound.moves (drainPass_moves swept)).congr rfl rfl (le_refl _)
      simp only at drained
      split_ifs at drained
      · exact ih sound₁ fewer first drained
      · obtain rfl := Except.ok.inj drained
        exact first

/-- What the application of one operation keeps, an operation that arrives keeps. -/
theorem keeps_applyRemote (sound : e.Sound) (waiting : ∀ op ∈ e.pending, P op) (offered : P op)
    (holds : Q e) {context : Option DeleteContext} {buffered : Bool}
    (applied : e.applyRemote op context = .ok (buffered, e')) : Q e' := by
  obtain ⟨contexts, recorded⟩ := Built.recordContext_eq e op context
  rw [Engine.applyRemote, recorded] at applied
  set e₀ : Engine := { e with deleteContext := contexts } with start
  have holds₀ : Q e₀ := ignores e e.pending contexts holds
  have sound₀ : e₀.Sound := sound.congr rfl rfl (le_refl _)
  split_ifs at applied with known ready
  · obtain ⟨-, rfl⟩ := Prod.mk.inj (Except.ok.inj applied)
    exact holds₀
  · obtain ⟨e₁, done, applied⟩ := Throwing.ok_of_bind applied
    obtain ⟨e₂, drained, applied⟩ := Throwing.ok_of_bind applied
    obtain ⟨-, rfl⟩ := Prod.mk.inj (Except.ok.inj applied)
    have fresh : op.id ∉ e₀.applied := fun member => known (decide_eq_true member)
    exact keeps_drainLoop ignores applies _ (sound₀.moves (doApply_moves fresh done))
      (doApply_pending fresh done ▸ waiting) (applies e₀ e₁ op sound₀ holds₀ offered fresh done)
      drained
  · obtain ⟨-, rfl⟩ := Prod.mk.inj (Except.ok.inj applied)
    exact ignores e₀ (e₀.pending ++ [op]) e₀.deleteContext holds₀

end Keeps

/-- What waits was offered. -/
theorem pending_applyRemote {context : Option DeleteContext} {buffered : Bool}
    (waiting : ∀ op ∈ e.pending, P op) (offered : P op)
    (applied : e.applyRemote op context = .ok (buffered, e')) : ∀ op ∈ e'.pending, P op := by
  rcases applyRemote_pending applied with sub | ⟨-, pending⟩
  · exact fun x member => waiting x (sub.subset member)
  · rw [pending]
    exact List.forall_mem_append.mpr ⟨waiting, List.forall_mem_singleton.mpr offered⟩

/-- A remote operation. -/
theorem Consists.applyRemote (consists : Consists P e) (sound : e.Sound) (offered : P op)
    {context : Option DeleteContext} {buffered : Bool}
    (applied : e.applyRemote op context = .ok (buffered, e')) : Consists P e' where
  nodes := keeps_applyRemote (fun _ _ _ holds => holds)
    (fun _ _ _ sound holds offered fresh done => doApply_nodes sound holds offered fresh done)
    sound consists.pending offered consists.nodes applied
  pending := pending_applyRemote consists.pending offered applied

/-- Taking a leaf out. -/
theorem Consists.tryRevertLocalInsert (consists : Consists P e) (sound : e.Sound) (id : Identifier) :
    Consists P (e.tryRevertLocalInsert id).2 := by
  obtain ⟨tree, reverted, -, sub⟩ := sound.tryRevert_frame id
  rw [reverted]
  exact ⟨fun m member => consists.nodes m (sub.subset member), consists.pending⟩

/-! ### Replayed nodes -/

theorem Consists.replayInserts {nodes : List Node} (consists : Consists P e) (sound : e.Sound)
    (given : ∀ op ∈ snapshotOps nodes, P op) (replayed : e.replayInserts nodes = .ok e') :
    Consists P e' := by
  have inserts : ∀ n ∈ nodes, P (.insert n.toInsert) := fun n member =>
    given _ (insert_mem_snapshotOps.mpr (List.mem_map_of_mem member))
  clear given
  induction nodes generalizing e with
  | nil =>
      obtain rfl := Except.ok.inj replayed
      exact consists
  | cons n nodes ih =>
      obtain ⟨⟨buffered, e₁⟩, applied, rest⟩ := Throwing.ok_of_bind replayed
      exact ih (consists.applyRemote sound (inserts n List.mem_cons_self) applied)
        (sound.moves (applyRemote_moves applied)) rest
        fun m member => inserts m (List.mem_cons_of_mem _ member)

theorem Consists.replayDeletes {nodes : List Node} (consists : Consists P e) (sound : e.Sound)
    (given : ∀ op ∈ snapshotOps nodes, P op) (replayed : e.replayDeletes nodes = .ok e') :
    Consists P e' := by
  have deletes : ∀ n ∈ nodes, ∀ d, n.deletedBy = some d → P (.delete ⟨d, n.id⟩) :=
    fun n member d dot => given _ (delete_mem_snapshotOps.mpr ⟨n, member, rfl, dot⟩)
  clear given
  induction nodes generalizing e with
  | nil =>
      obtain rfl := Except.ok.inj replayed
      exact consists
  | cons n nodes ih =>
      have deletes' : ∀ m ∈ nodes, ∀ d, m.deletedBy = some d → P (.delete ⟨d, m.id⟩) :=
        fun m member => deletes m (List.mem_cons_of_mem _ member)
      rw [Engine.replayDeletes] at replayed
      split_ifs at replayed with deleted
      · split at replayed
        · cases replayed
        · rename_i deletedBy dot
          obtain ⟨⟨buffered, e₁⟩, applied, rest⟩ := Throwing.ok_of_bind replayed
          exact ih (consists.applyRemote sound (deletes n List.mem_cons_self deletedBy dot) applied)
            (sound.moves (applyRemote_moves applied)) rest deletes'
      · exact ih consists sound replayed deletes'

/-- An engine that is seeded with nodes has nothing else. -/
theorem consists_seed {replicaId : Nat} {nodes : List Node} (given : ∀ op ∈ snapshotOps nodes, P op)
    (seeded : seedEngineFromSnapshot replicaId nodes = .ok e) : Consists P e := by
  obtain ⟨e₁, inserted, deleted⟩ := Throwing.ok_of_bind seeded
  have sound := sound_new replicaId
  exact ((consists_new P replicaId).replayInserts sound given inserted).replayDeletes
    (sound.replayInserts_spec inserted).sound given deleted

/-! ### Reachable engines -/

theorem Reachable.call (reachable : e.Reachable) {c : Call} (called : e.call c = .ok e') :
    e'.Reachable := by
  obtain ⟨replicaId, reached⟩ := reachable
  exact ⟨replicaId, reached.trans (.single called)⟩

theorem Reachable.applyRemote (reachable : e.Reachable) {context : Option DeleteContext}
    {buffered : Bool} (applied : e.applyRemote op context = .ok (buffered, e')) : e'.Reachable :=
  reachable.call (c := .applyRemote op context) (by rw [Engine.call, applied]; rfl)

theorem Reachable.edit (reachable : e.Reachable) {edit : LocalEdit} {ops : List Operation}
    (edited : e.edit edit = .ok (ops, e')) : e'.Reachable :=
  reachable.call (c := .edit edit) (by rw [Engine.call, edited]; rfl)

theorem Reachable.replayInserts {nodes : List Node} (reachable : e.Reachable)
    (replayed : e.replayInserts nodes = .ok e') : e'.Reachable := by
  induction nodes generalizing e with
  | nil =>
      obtain rfl := Except.ok.inj replayed
      exact reachable
  | cons n nodes ih =>
      obtain ⟨⟨buffered, e₁⟩, applied, rest⟩ := Throwing.ok_of_bind replayed
      exact ih (reachable.applyRemote applied) rest

theorem Reachable.replayDeletes {nodes : List Node} (reachable : e.Reachable)
    (replayed : e.replayDeletes nodes = .ok e') : e'.Reachable := by
  induction nodes generalizing e with
  | nil =>
      obtain rfl := Except.ok.inj replayed
      exact reachable
  | cons n nodes ih =>
      rw [Engine.replayDeletes] at replayed
      split_ifs at replayed
      · split at replayed
        · cases replayed
        · obtain ⟨⟨buffered, e₁⟩, applied, rest⟩ := Throwing.ok_of_bind replayed
          exact ih (reachable.applyRemote applied) rest
      · exact ih reachable replayed

theorem reachable_new (replicaId : Nat) : (new replicaId).Reachable :=
  ⟨replicaId, .refl _⟩

theorem reachable_seed {replicaId : Nat} {nodes : List Node}
    (seeded : seedEngineFromSnapshot replicaId nodes = .ok e) : e.Reachable := by
  obtain ⟨e₁, inserted, deleted⟩ := Throwing.ok_of_bind seeded
  exact ((reachable_new replicaId).replayInserts inserted).replayDeletes deleted

/-! ### Local edits -/

/-- A node that a path of changes adds has a new identifier. -/
theorem Moves.nodes (moves : Moves e e') (sound : e.Sound) : ∀ n ∈ e'.tree.nodes,
    (∃ m ∈ e.tree.nodes, m.toInsert = n.toInsert) ∨ n.id ∉ e.applied := by
  induction moves with
  | refl => exact fun n member => Or.inl ⟨n, member, rfl⟩
  | @tail e₁ e₂ first move ih =>
      intro n member
      have old : ∀ m ∈ e₁.tree.nodes, m.toInsert = n.toInsert →
          (∃ m ∈ e.tree.nodes, m.toInsert = n.toInsert) ∨ n.id ∉ e.applied := by
        intro m inside same
        have id : m.id = n.id := congrArg InsertOperation.id same
        rw [← same, ← id]
        exact ih m inside
      have listed := (sound.moves first).listed move
      generalize e₂.tree.nodes = new at listed member
      generalize e₂.applied = applied at listed
      cases listed with
      | same => exact old n member rfl
      | spared => exact old n member rfl
      | insert op fresh split =>
          rcases List.mem_append.mp member with front | rest
          · exact old n (split ▸ List.mem_append_left _ front) rfl
          · rcases List.mem_cons.mp rest with rfl | back
            · exact Or.inr fun known => fresh (Moves.applied_mono first known)
            · exact old n (split ▸ List.mem_append_right _ back) rfl
      | flag id fresh target named =>
          obtain ⟨m, inside, rfl⟩ := List.mem_map.mp member
          exact old m inside (FugueTree.flag_toInsert ..).symm
      | remove split =>
          refine old n ?_ rfl
          rw [split]
          rcases List.mem_append.mp member with front | back
          · exact List.mem_append_left _ front
          · exact List.mem_append_right _ (List.mem_cons_of_mem _ back)

/-- A deletion adds no node. -/
theorem Deleting.nodes {ops : List DeleteOperation} (path : Deleting e ops e') (sound : e.Sound) :
    ∀ n ∈ e'.tree.nodes, ∃ m ∈ e.tree.nodes, m.toInsert = n.toInsert := by
  induction path with
  | done => exact fun n member => ⟨n, member, rfl⟩
  | @delete e e₁ e' target ops applied rest ih =>
      have sound₀ : e.mint.2.Sound := sound.congr rfl rfl (Nat.le_succ _)
      intro n member
      obtain ⟨m, inside, same⟩ := ih (sound.moves (deleting_moves_one sound applied)) n member
      obtain ⟨m', inside', same'⟩ := applyDelete_nodes sound₀ applied inside
      exact ⟨m', inside', same'.trans same⟩

/-- An operation is applied to a node of the document. -/
theorem applyKind_ready (sound : e.Sound) (applied : e.applyKind op = .ok e') {d : Identifier}
    (named : op.dependency = some d) : d ∈ e.applied := by
  have known : e.tree.hasIdentifier d = true → d ∈ e.applied := fun present => by
    obtain ⟨n, member, rfl⟩ := sound.wf.hasIdentifier_iff.mp present
    exact sound.known n member
  have found : ∀ n, e.tree.nodeByIdentifier d = some n → d ∈ e.applied := fun n lookup => by
    obtain ⟨member, rfl⟩ := sound.wf.nodeByIdentifier_eq_some_iff.mp lookup
    exact sound.known n member
  cases op with
  | insert ins =>
      obtain ⟨tree, attached, -⟩ := Throwing.ok_of_bind applied
      exact known (attach_ready attached d named)
  | delete del =>
      obtain rfl := Option.some.inj named
      simp only [applyKind, applyDelete] at applied
      split at applied
      · cases applied
      · exact found _ ‹_›
  | undelete und =>
      obtain rfl := Option.some.inj named
      simp only [applyKind, applyUndelete] at applied
      split at applied
      · cases applied
      · exact found _ ‹_›

theorem Deleting.dependency {ops : List DeleteOperation} (path : Deleting e ops e')
    (sound : e.Sound) : ∀ op ∈ ops, op.target ∈ e'.applied := by
  induction path with
  | done => nofun
  | @delete e e₁ e' target ops applied rest ih =>
      have first := deleting_moves_one sound applied
      have sound₁ := sound.moves first
      refine List.forall_mem_cons.mpr ⟨?_, ih sound₁⟩
      have sound₀ : e.mint.2.Sound := sound.congr rfl rfl (Nat.le_succ _)
      have kind : e.mint.2.applyKind (.delete ⟨e.mint.1, target⟩) = .ok e₁ := applied
      have here : target ∈ e.applied := applyKind_ready sound₀ kind rfl
      exact (rest.moves sound₁).applied_mono (first.applied_mono here)

/-- What an edit mints is applied to nodes of the document. -/
theorem edit_dependency (sound : e.Sound) {edit : LocalEdit} {ops : List Operation}
    (edited : e.edit edit = .ok (ops, e')) :
    ∀ op ∈ ops, ∀ d, op.dependency = some d → d ∈ e'.applied := by
  have moves := edit_moves sound edited
  have sound₀ : e.mint.2.Sound := sound.congr rfl rfl (Nat.le_succ _)
  have reversed : ∀ {popFrom pushTo popFrom' pushTo' : List UndoStackEntry} {outcome : UndoOutcome}
      {e₁ : Engine}, e.stepUndoRedo popFrom pushTo = .ok (outcome, e₁, popFrom', pushTo') →
      ∀ op ∈ Built.operations outcome, ∀ d, op.dependency = some d → d ∈ e.applied := by
    intro popFrom pushTo popFrom' pushTo' outcome e₁ stepped op member d named
    cases Built.reversed_of_step stepped with
    | idle quiet =>
        rw [quiet] at member
        cases member
    | applied effect stack present chosen applied =>
        obtain rfl := List.mem_singleton.mp member
        exact applyKind_ready sound₀ applied named
  cases edit with
  | insert visibleIndex value bind =>
      obtain ⟨⟨op, e₁⟩, inserted, done⟩ := Throwing.ok_of_bind edited
      obtain ⟨rfl, rfl⟩ := Prod.mk.inj (Except.ok.inj done)
      obtain ⟨⟨parent, side⟩, -, inserted⟩ := Throwing.ok_of_bind inserted
      obtain ⟨e₂, applied, done⟩ := Throwing.ok_of_bind inserted
      obtain ⟨rfl, rfl⟩ := Prod.mk.inj (Except.ok.inj done)
      refine List.forall_mem_singleton.mpr fun d named => moves.applied_mono ?_
      have kind : e.mint.2.applyKind (.insert ⟨e.mint.1, value, parent, side, bind⟩) = .ok e₂ :=
        applied
      exact applyKind_ready sound₀ kind named
  | delete visibleIndex count =>
      obtain ⟨⟨dels, e₁⟩, deleted, done⟩ := Throwing.ok_of_bind edited
      obtain ⟨rfl, rfl⟩ := Prod.mk.inj (Except.ok.inj done)
      have sound₁ : Sound { e with redoStack := [] } := sound.congr rfl rfl (le_refl _)
      intro op member d named
      obtain ⟨del, inside, rfl⟩ := List.mem_map.mp member
      obtain rfl := Option.some.inj named
      exact (deleting_of_loop count deleted).dependency sound₁ del inside
  | undo =>
      obtain ⟨⟨outcome, e₁⟩, undone, done⟩ := Throwing.ok_of_bind edited
      obtain ⟨rfl, rfl⟩ := Prod.mk.inj (Except.ok.inj done)
      obtain ⟨⟨outcome₁, e₂, popped, pushed⟩, stepped, done⟩ := Throwing.ok_of_bind undone
      obtain ⟨rfl, rfl⟩ := Prod.mk.inj (Except.ok.inj done)
      exact fun op member d named => moves.applied_mono (reversed stepped op member d named)
  | redo =>
      obtain ⟨⟨outcome, e₁⟩, redone, done⟩ := Throwing.ok_of_bind edited
      obtain ⟨rfl, rfl⟩ := Prod.mk.inj (Except.ok.inj done)
      obtain ⟨⟨outcome₁, e₂, popped, pushed⟩, stepped, done⟩ := Throwing.ok_of_bind redone
      obtain ⟨rfl, rfl⟩ := Prod.mk.inj (Except.ok.inj done)
      exact fun op member d named => moves.applied_mono (reversed stepped op member d named)

end Engine

end ConfluenceEditor
