/-
Attributions under the runtime assertions.

A delete never leaves a smaller attribution on its node, and an undelete leaves none at all. So I7
cannot fail in a run without undeletes (`passes_iff_of_forward`): such a run passes every assertion at
which nothing has left without notice and nothing waits at the end. An undelete followed by another
replica's earlier delete regresses, in a run in which every replica behaves (`undelete_regresses`).
-/

import ConfluenceEditor.Engine.Invariants

namespace ConfluenceEditor

open SidedForest Engine EngineTrackingState

/-- Every attribution that was seen is of a known node, and that node has none that is smaller. -/
def Advancing (seen : Identifier → Option Identifier) (e : Engine) : Prop :=
  ∀ id p, seen id = some p → id ∈ e.applied ∧
    ∀ n ∈ e.tree.nodes, n.id = id → ∃ d, n.deletedBy = some d ∧ ¬ d < p

/-- An operation that takes no tombstone back. -/
def Operation.forward : Operation → Bool
  | .undelete _ => false
  | _ => true

/-- A call that takes no tombstone back. -/
def Engine.Call.forward : Engine.Call → Bool
  | .applyRemote op _ => op.forward
  | .edit .undo => false
  | .edit .redo => false
  | _ => true

/-- A delete leaves no attribution that is smaller. -/
theorem not_laterDelete_lt (id : Identifier) {d p : Identifier} (above : ¬ d < p) :
    ¬ laterDelete id (some d) < p := by
  rw [laterDelete]
  split_ifs with later
  · rw [compareIds_pos_iff, Identifier.lt_iff] at later
    rw [Identifier.lt_iff] at above ⊢
    omega
  · exact above

namespace Advancing

variable {seen : Identifier → Option Identifier} {e e' : Engine}

/-- Nodes that were there before. -/
theorem sub (advancing : Advancing seen e) (nodes : ∀ n ∈ e'.tree.nodes, n ∈ e.tree.nodes)
    (applied : ∀ id ∈ e.applied, id ∈ e'.applied) : Advancing seen e' := fun id p dot =>
  ⟨applied id (advancing id p dot).1, fun n member => (advancing id p dot).2 n (nodes n member)⟩

theorem applyKind (sound : e.Sound) (advancing : Advancing seen e) {op : Operation}
    (forward : op.forward = true) (fresh : op.id ∉ e.applied) (applied : e.applyKind op = .ok e') :
    Advancing seen (e'.markApplied op.id) := by
  cases op with
  | undelete op => cases forward
  | insert op =>
      obtain ⟨tree, attached, done⟩ := Throwing.ok_of_bind applied
      obtain rfl := Except.ok.inj done
      obtain ⟨tree', attached', -, -, before, after, old, new⟩ :=
        sound.wf.attach_spec op (attach_ready attached) (sound.fresh_node fresh)
      obtain rfl := Except.ok.inj (attached'.symm.trans attached)
      intro id p dot
      obtain ⟨known, above⟩ := advancing id p dot
      have apart : op.id ≠ id := by
        rintro rfl
        exact fresh known
      refine ⟨List.mem_cons_of_mem _ known, fun n member here => ?_⟩
      have inside : n ∈ before ++ op.toNode :: after := new ▸ member
      rcases List.mem_append.mp inside with first | rest
      · exact above n (old ▸ List.mem_append_left _ first) here
      · rcases List.mem_cons.mp rest with rfl | last
        · exact absurd here apart
        · exact above n (old ▸ List.mem_append_right _ last) here
  | delete op =>
      simp only [Engine.applyKind, applyDelete] at applied
      split at applied
      · cases applied
      · rename_i target found
        obtain ⟨tree, set, done⟩ := Throwing.ok_of_bind applied
        obtain rfl := Except.ok.inj done
        obtain ⟨tree', set', -, -, list⟩ := sound.wf.setDeleted_spec true
          (some (laterDelete op.id target.deletedBy)) (setDeleted_present set)
        obtain rfl := Except.ok.inj (set'.symm.trans set)
        obtain ⟨there, named⟩ := sound.wf.nodeByIdentifier_eq_some_iff.mp found
        intro id p dot
        obtain ⟨known, above⟩ := advancing id p dot
        refine ⟨List.mem_cons_of_mem _ known, fun n member here => ?_⟩
        obtain ⟨m, inside, rfl⟩ := List.mem_map.mp (list ▸ member)
        rw [FugueTree.flag_id] at here
        obtain ⟨d, shown, above⟩ := above m inside here
        by_cases hit : m.id = op.target
        · have same : m = target := sound.wf.eq_of_id_eq inside there (hit.trans named.symm)
          rw [FugueTree.flag, if_pos hit, ← same, shown]
          exact ⟨_, rfl, not_laterDelete_lt op.id above⟩
        · rw [FugueTree.flag, if_neg hit]
          exact ⟨d, shown, above⟩

theorem doApply (sound : e.Sound) (advancing : Advancing seen e) {op : Operation}
    (forward : op.forward = true) (fresh : op.id ∉ e.applied) (applied : e.doApply op = .ok e') :
    Advancing seen e' := by
  obtain ⟨e₁, kind, done⟩ := Throwing.ok_of_bind applied
  obtain rfl := Except.ok.inj done
  obtain ⟨counters, noted⟩ := noteCounter_eq (e.observe op.id.c) op.id
  rw [noted] at kind
  have sound₀ : Sound { e.observe op.id.c with maxCounterByReplica := counters } :=
    sound.congr rfl rfl (le_max_left ..)
  have advancing₀ : Advancing seen { e.observe op.id.c with maxCounterByReplica := counters } :=
    advancing
  exact advancing₀.applyKind sound₀ forward fresh kind

/-- A minted operation. -/
theorem mint (sound : e.Sound) (advancing : Advancing seen e) (op : Operation)
    (id : op.id = e.mint.1) (forward : op.forward = true)
    (applied : e.mint.2.applyKind op = .ok e') : Advancing seen (e'.markApplied op.id) := by
  have sound₁ : e.mint.2.Sound := sound.congr rfl rfl (Nat.le_succ _)
  have advancing₁ : Advancing seen e.mint.2 := advancing
  exact advancing₁.applyKind sound₁ forward (id ▸ sound.mint_fresh) applied

theorem deleting (sound : e.Sound) (advancing : Advancing seen e) {ops : List DeleteOperation}
    (path : Deleting e ops e') : Advancing seen e' := by
  induction path with
  | done => exact advancing
  | @delete e e₁ e' target ops applied rest ih =>
      have next := advancing.mint sound (.delete ⟨e.mint.1, target⟩) rfl rfl applied
      exact ih (sound.moves (deleting_moves_one sound applied)) next

theorem edit (sound : e.Sound) (advancing : Advancing seen e) {edit : LocalEdit}
    (forward : Call.forward (.edit edit) = true) {ops : List Operation}
    (edited : e.edit edit = .ok (ops, e')) : Advancing seen e' := by
  cases edit with
  | undo => cases forward
  | redo => cases forward
  | insert visibleIndex value bind =>
      obtain ⟨⟨op, e₁⟩, inserted, done⟩ := Throwing.ok_of_bind edited
      obtain ⟨-, rfl⟩ := Prod.mk.inj (Except.ok.inj done)
      obtain ⟨⟨parent, side⟩, -, inserted⟩ := Throwing.ok_of_bind inserted
      obtain ⟨e₂, applied, done⟩ := Throwing.ok_of_bind inserted
      obtain ⟨-, rfl⟩ := Prod.mk.inj (Except.ok.inj done)
      exact advancing.mint sound (.insert ⟨e.mint.1, value, parent, side, bind⟩) rfl rfl applied
  | delete visibleIndex count =>
      obtain ⟨⟨ops', e₁⟩, deleted, done⟩ := Throwing.ok_of_bind edited
      obtain ⟨-, rfl⟩ := Prod.mk.inj (Except.ok.inj done)
      have sound₀ : Sound { e with redoStack := [] } := sound.congr rfl rfl (le_refl _)
      have advancing₀ : Advancing seen { e with redoStack := [] } := advancing
      exact advancing₀.deleting sound₀ (deleting_of_loop count deleted)

/-- Any call that takes no tombstone back. -/
theorem call (sound : e.Sound) (advancing : Advancing seen e)
    (waiting : ∀ op ∈ e.pending, op.forward = true) {c : Call} (forward : c.forward = true)
    (called : e.call c = .ok e') : Advancing seen e' := by
  cases c with
  | applyRemote op context =>
      obtain ⟨⟨buffered, e₁⟩, applied, done⟩ := Throwing.ok_of_bind called
      obtain rfl := Except.ok.inj done
      exact keeps_applyRemote (P := fun op => op.forward = true) (Q := Advancing seen)
        (fun _ _ _ holds => holds)
        (fun _ _ _ sound holds forward fresh applied => holds.doApply sound forward fresh applied)
        sound waiting forward advancing applied
  | edit edit =>
      obtain ⟨⟨ops, e₁⟩, edited, done⟩ := Throwing.ok_of_bind called
      obtain rfl := Except.ok.inj done
      exact advancing.edit sound forward edited
  | setDeleteContext id context =>
      obtain rfl := Except.ok.inj called
      exact advancing
  | rejectPending id =>
      obtain rfl := Except.ok.inj called
      obtain ⟨pending, rejected, -⟩ := rejectPending_eq e id
      rw [rejected]
      exact advancing
  | tryRevertLocalInsert id =>
      obtain rfl := Except.ok.inj called
      obtain ⟨tree, reverted, -, kept⟩ := sound.tryRevert_frame id
      rw [reverted]
      exact advancing.sub (fun n member => kept.subset member) fun _ known => known
  | collect frontier options =>
      obtain ⟨⟨result, e₁⟩, ran, done⟩ := Throwing.ok_of_bind called
      obtain rfl := Except.ok.inj done
      obtain ⟨result', e₂, gone, ran', collected, -⟩ := sound.collect_spec frontier options
      obtain ⟨-, rfl⟩ := Prod.mk.inj (Except.ok.inj (ran'.symm.trans ran))
      have nodes := collected.nodes sound
      exact advancing.sub (fun n member => (List.mem_filter.mp (nodes ▸ member)).1)
        fun _ => collected.moves.applied_mono

end Advancing

namespace Asserted

/-- An event that takes no tombstone back. -/
def forward : AssertedEvent → Bool
  | .call c => c.forward
  | .assertInvariants _ => true

/-- Nothing that waits is an undelete, and no attribution is smaller than the one remembered. -/
structure Forward (s : Asserted) : Prop where
  fits : s.Fits
  waiting : ∀ op ∈ s.engine.pending, op.forward = true
  advancing : Advancing s.tracking.deletedBySeen s.engine

variable {s s' : Asserted}

theorem call_waiting {e e' : Engine} (sound : e.Sound)
    (waiting : ∀ op ∈ e.pending, op.forward = true) {c : Call} (forward : c.forward = true)
    (called : e.call c = .ok e') : ∀ op ∈ e'.pending, op.forward = true := by
  rcases call_pending sound called with sub | ⟨op, context, rfl, -, grown⟩
  · exact fun x member => waiting x (sub.subset member)
  · rw [grown]
    exact List.forall_mem_append.mpr ⟨waiting, List.forall_mem_singleton.mpr forward⟩

theorem Forward.step (holds : s.Forward) {event : AssertedEvent} (plain : forward event = true)
    (stepped : s.step event = .ok s') : s'.Forward := by
  refine ⟨holds.fits.step stepped, ?_, ?_⟩
  · cases event with
    | call c =>
        obtain ⟨e', called, done⟩ := Throwing.ok_of_bind stepped
        obtain rfl := Except.ok.inj done
        exact call_waiting holds.fits.sound holds.waiting plain called
    | assertInvariants options =>
        obtain rfl := Except.ok.inj stepped
        exact holds.waiting
  · cases event with
    | call c =>
        obtain ⟨e', called, done⟩ := Throwing.ok_of_bind stepped
        obtain rfl := Except.ok.inj done
        exact holds.advancing.call holds.fits.sound holds.waiting plain called
    | assertInvariants options =>
        obtain rfl := Except.ok.inj stepped
        intro id p seen
        rcases checkNodes_seen seen with old | ⟨entry, member, rfl, dot⟩
        · exact holds.advancing id p old
        · have here := List.mem_of_getElem? (List.mem_zipIdx_iff_getElem?.mp member)
          rw [holds.fits.nodes_eq] at here
          refine ⟨holds.fits.sound.known _ here, fun n inside same => ⟨p, ?_, Identifier.lt_irrefl p⟩⟩
          rw [holds.fits.sound.wf.eq_of_id_eq inside here same]
          exact dot

theorem Forward.regressions (holds : s.Forward) : s.regressions = [] := by
  refine List.flatMap_eq_nil_iff.mpr fun n member => ?_
  rw [holds.fits.nodes_eq] at member
  unfold checkDeletedBy
  cases shown : n.deletedBy with
  | none => rfl
  | some d =>
      cases seen : s.tracking.deletedBySeen n.id with
      | none => rfl
      | some p =>
          obtain ⟨d', same, above⟩ := (holds.advancing n.id p seen).2 n member rfl
          obtain rfl := Option.some.inj (shown.symm.trans same)
          exact if_neg fun below => above (compareIds_neg_iff.mp below)

theorem forward_run {replicaId : Nat} {events : List AssertedEvent}
    (ran : Run.run step (new replicaId) events = .ok s)
    (plain : ∀ event ∈ events, forward event = true) : s.Forward := by
  have start : (new replicaId).Forward := by
    refine ⟨fits_new replicaId, fun op absent => ?_, fun id p seen => ?_⟩
    · cases absent
    · cases seen
  have each : Run.Each step (fun _ event => forward event = true) (new replicaId) events :=
    ((Run.each_true events).and_label plain).imp fun _ _ both => both.2
  exact (Run.always_of_each (fun _ _ _ holds plain stepped => holds.step plain stepped) start each).last ran

/-- A character arrives, is deleted, and an assertion sees it; the deleter takes the delete back, and
another replica's earlier delete arrives. -/
def undeleted : List AssertedEvent :=
  [.call (.applyRemote (.insert ⟨⟨1, 2⟩, 97, none, .R, false⟩) none),
    .call (.applyRemote (.delete ⟨⟨5, 2⟩, ⟨1, 2⟩⟩) none), .assertInvariants ⟨false, false⟩,
    .call (.applyRemote (.undelete ⟨⟨6, 2⟩, ⟨1, 2⟩⟩) none),
    .call (.applyRemote (.delete ⟨⟨3, 3⟩, ⟨1, 2⟩⟩) none)]

/-- The assertion reports a regression, although every replica behaved. -/
theorem undelete_regresses : ∃ s, Run.run step (new 1) undeleted = .ok s ∧
    s.violations ⟨false, false⟩ = [.I7 ⟨1, 2⟩ ⟨5, 2⟩ ⟨3, 3⟩] ∧
    ¬ Advanced (observed (new 1) undeleted) s.engine := by
  obtain ⟨s, ran, checked⟩ := Run.exists_of_ends (Run.run step (new 1) undeleted)
    (fun s => decide (s.violations ⟨false, false⟩ = [.I7 ⟨1, 2⟩ ⟨5, 2⟩ ⟨3, 3⟩]) &&
      decide (∀ last ∈ (observed (new 1) undeleted).getLast?,
        last.nodes.length ≤ s.engine.nodes.length)) (by decide)
  rw [Bool.and_eq_true, decide_eq_true_iff, decide_eq_true_iff] at checked
  refine ⟨s, ran, checked.1, fun advanced => ?_⟩
  have passes := (passes_iff ran ⟨false, false⟩).mpr ⟨advanced, fun _ => checked.2, nofun⟩
  rw [checked.1] at passes
  cases passes

/-- A character is typed between two assertions, deleted and collected. -/
def collected : List AssertedEvent :=
  [.assertInvariants ⟨false, false⟩, .call (.edit (.insert 0 97 false)),
    .assertInvariants ⟨false, false⟩, .call (.edit (.delete 0 1)),
    .call (.setDeleteContext ⟨2, 1⟩ ⟨0, 5⟩), .call (.collect 10 ⟨1000, 10, 1, none, none⟩)]

end Asserted

end ConfluenceEditor
