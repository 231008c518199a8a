/-
The engine's log of clock events.

Next to its clock an engine logs what moved it: a local operation mints, an applied remote operation
is observed. `callEvents` is what a method of the engine pushes to the log, computed from the engine
before the call, and these events lead from the clock before the call to the clock behind it
(`call_clock`), whatever the drain loop applies on the way.
-/

import ConfluenceEditor.Engine.Calls

namespace ConfluenceEditor

open Engine

/-! ### The log of the clock -/

inductive ClockEvent where
  | mint
  | observe (remoteCounter : Nat)
  deriving DecidableEq, Repr

/-- The right semantics of an event. -/
def ClockEvent.replay (replayed : Nat) : ClockEvent → Nat
  | .mint => replayed + 1
  | .observe remoteCounter => max replayed remoteCounter

namespace Engine

/-- What one sweep of the drain loop pushes. -/
def drainPassEvents (e : Engine) : List Operation → List ClockEvent
  | [] => []
  | op :: earlierIndex =>
      e.drainPassEvents earlierIndex ++ match e.drainPass earlierIndex with
        | .ok (e, _, _) => if !e.hasApplied op.id && e.ready op then [.observe op.id.c] else []
        | .error _ => []

def drainLoopEvents : Nat → Engine → List ClockEvent
  | 0, _ => []
  | sweeps + 1, e =>
      e.drainPassEvents e.pending ++ match e.drainPass e.pending with
        | .ok (e', kept, true) => drainLoopEvents sweeps { e' with pending := kept }
        | _ => []

/-- What a delivery pushes: one observation for each operation that is applied. -/
def applyRemoteEvents (e : Engine) (op : Operation) (context : Option DeleteContext) :
    List ClockEvent :=
  let e := e.recordContext op context
  if !e.hasApplied op.id && e.ready op then
    .observe op.id.c :: match e.doApply op with
      | .ok e => drainLoopEvents (e.pending.length + 1) e
      | .error _ => []
  else []

/-- What a call pushes to the log. A local edit mints once for each of its operations. -/
def callEvents (e : Engine) : Call → List ClockEvent
  | .applyRemote op context => e.applyRemoteEvents op context
  | .edit edit =>
      match e.edit edit with
      | .ok (ops, _) => ops.map fun _ => .mint
      | .error _ => []
  | _ => []

end Engine

/-! ### The log explains the clock -/

section Clock

variable {e e' : Engine}

theorem applyKind_clock (op : Operation) (applied : e.applyKind op = .ok e') :
    e'.clock = e.clock := by
  cases op with
  | insert op =>
      obtain ⟨tree, -, done⟩ := Throwing.ok_of_bind applied
      obtain rfl := Except.ok.inj done
      rfl
  | delete op =>
      simp only [applyKind, applyDelete] at applied
      split at applied
      · cases applied
      · obtain ⟨tree, -, done⟩ := Throwing.ok_of_bind applied
        obtain rfl := Except.ok.inj done
        rfl
  | undelete op =>
      simp only [applyKind, applyUndelete] at applied
      split at applied
      · cases applied
      · split at applied
        · obtain rfl := Except.ok.inj applied
          rfl
        · split_ifs at applied
          · obtain ⟨tree, -, done⟩ := Throwing.ok_of_bind applied
            obtain rfl := Except.ok.inj done
            rfl
          · obtain rfl := Except.ok.inj applied
            rfl

theorem doApply_clock {op : Operation} (applied : e.doApply op = .ok e') :
    e'.clock = ClockEvent.replay e.clock (.observe op.id.c) := by
  obtain ⟨counters, noted⟩ := noteCounter_eq (e.observe op.id.c) op.id
  obtain ⟨e₁, kind, done⟩ := Throwing.ok_of_bind applied
  obtain rfl := Except.ok.inj done
  have same := applyKind_clock op kind
  rw [noted] at same
  exact same

theorem drainPass_clock {offered kept : List Operation} {progressed : Bool}
    (swept : e.drainPass offered = .ok (e', kept, progressed)) :
    e'.clock = (e.drainPassEvents offered).foldl ClockEvent.replay e.clock := by
  induction offered generalizing e' kept progressed with
  | nil =>
      obtain ⟨rfl, -⟩ := Prod.mk.inj (Except.ok.inj swept)
      rfl
  | cons op offered ih =>
      obtain ⟨⟨e₁, kept₁, progressed₁⟩, first, swept⟩ := Throwing.ok_of_bind swept
      rw [drainPassEvents, first, List.foldl_append, ← ih first]
      simp only at swept ⊢
      split_ifs at swept with known ready
      · obtain ⟨rfl, -⟩ := Prod.mk.inj (Except.ok.inj swept)
        rw [known]
        rfl
      · obtain ⟨e₂, applied, done⟩ := Throwing.ok_of_bind swept
        obtain ⟨rfl, -⟩ := Prod.mk.inj (Except.ok.inj done)
        rw [Bool.not_eq_true] at known
        rw [known, ready]
        exact doApply_clock applied
      · obtain ⟨rfl, -⟩ := Prod.mk.inj (Except.ok.inj swept)
        rw [Bool.not_eq_true] at ready
        rw [ready, Bool.and_false]
        rfl

theorem drainLoop_clock (sweeps : Nat) {e : Engine} (drained : drainLoop sweeps e = .ok e') :
    e'.clock = (drainLoopEvents sweeps e).foldl ClockEvent.replay e.clock := by
  induction sweeps generalizing e with
  | zero =>
      obtain rfl := Except.ok.inj drained
      rfl
  | succ sweeps ih =>
      obtain ⟨⟨e₁, kept, progressed⟩, swept, drained⟩ := Throwing.ok_of_bind drained
      rw [drainLoopEvents, swept, List.foldl_append, ← drainPass_clock swept]
      cases progressed with
      | true => exact ih drained
      | false =>
          obtain rfl := Except.ok.inj drained
          rfl

theorem applyRemote_clock {op : Operation} {context : Option DeleteContext} {buffered : Bool}
    (applied : e.applyRemote op context = .ok (buffered, e')) :
    e'.clock = (e.applyRemoteEvents op context).foldl ClockEvent.replay e.clock := by
  obtain ⟨contexts, recorded⟩ := Built.recordContext_eq e op context
  rw [applyRemote, recorded] at applied
  rw [applyRemoteEvents, recorded]
  simp only at applied ⊢
  split_ifs at applied with known ready
  · obtain ⟨-, rfl⟩ := Prod.mk.inj (Except.ok.inj applied)
    rw [known]
    rfl
  · obtain ⟨e₁, first, applied⟩ := Throwing.ok_of_bind applied
    obtain ⟨e₂, drained, applied⟩ := Throwing.ok_of_bind applied
    obtain ⟨-, rfl⟩ := Prod.mk.inj (Except.ok.inj applied)
    rw [Bool.not_eq_true] at known
    rw [known, ready, first]
    have later := drainLoop_clock _ drained
    rw [doApply_clock first] at later
    exact later
  · obtain ⟨-, rfl⟩ := Prod.mk.inj (Except.ok.inj applied)
    rw [Bool.not_eq_true] at ready
    rw [ready, Bool.and_false]
    rfl

theorem localDeleteLoop_clock {visibleIndex : Int} (count : Nat) {e : Engine}
    {ops : List DeleteOperation} (deleted : localDeleteLoop visibleIndex count e = .ok (ops, e')) :
    e'.clock = e.clock + ops.length := by
  induction count generalizing e ops with
  | zero =>
      obtain ⟨rfl, rfl⟩ := Prod.mk.inj (Except.ok.inj deleted)
      rfl
  | succ count ih =>
      obtain ⟨found, -, deleted⟩ := Throwing.ok_of_bind deleted
      cases found with
      | none =>
          obtain ⟨rfl, rfl⟩ := Prod.mk.inj (Except.ok.inj deleted)
          rfl
      | some target =>
          obtain ⟨e₁, applied, deleted⟩ := Throwing.ok_of_bind deleted
          obtain ⟨⟨ops', e₂⟩, rest, done⟩ := Throwing.ok_of_bind deleted
          obtain ⟨rfl, rfl⟩ := Prod.mk.inj (Except.ok.inj done)
          have first : e₁.clock = e.clock + 1 := applyKind_clock (.delete _) applied
          have later := ih rest
          change e₂.clock = e₁.clock + ops'.length at later
          rw [later, first, List.length_cons]
          omega

theorem stepUndoRedo_clock {popFrom pushTo popFrom' pushTo' : List UndoStackEntry}
    {outcome : UndoOutcome}
    (stepped : e.stepUndoRedo popFrom pushTo = .ok (outcome, e', popFrom', pushTo')) :
    e'.clock = e.clock + (Built.operations outcome).length := by
  unfold stepUndoRedo at stepped
  split at stepped
  · obtain ⟨rfl, same⟩ := Prod.mk.inj (Except.ok.inj stepped)
    rw [← (Prod.mk.inj same).1]
    rfl
  · rename_i entry popFrom
    by_cases present : e.tree.hasIdentifier entry.op.target = true
    · rw [if_pos present] at stepped
      obtain ⟨shape, -, stepped⟩ := Throwing.ok_of_bind stepped
      simp only at stepped
      split at stepped
      · cases stepped
      · obtain ⟨e₁, applied, done⟩ := Throwing.ok_of_bind stepped
        obtain ⟨rfl, same⟩ := Prod.mk.inj (Except.ok.inj done)
        rw [← (Prod.mk.inj same).1]
        exact applyKind_clock _ applied
    · rw [if_neg present] at stepped
      obtain ⟨rfl, same⟩ := Prod.mk.inj (Except.ok.inj stepped)
      rw [← (Prod.mk.inj same).1]
      rfl

/-- A local edit advances the clock by one for each of its operations. -/
theorem edit_clock {edit : LocalEdit} {ops : List Operation} (edited : e.edit edit = .ok (ops, e')) :
    e'.clock = e.clock + ops.length := by
  cases edit with
  | insert visibleIndex value bind =>
      obtain ⟨⟨op, e₁⟩, inserted, done⟩ := Throwing.ok_of_bind edited
      obtain ⟨rfl, rfl⟩ := Prod.mk.inj (Except.ok.inj done)
      obtain ⟨placement, -, inserted⟩ := Throwing.ok_of_bind inserted
      obtain ⟨e₂, applied, done⟩ := Throwing.ok_of_bind inserted
      obtain ⟨-, rfl⟩ := Prod.mk.inj (Except.ok.inj done)
      exact applyKind_clock (.insert _) applied
  | delete visibleIndex count =>
      obtain ⟨⟨ops', e₁⟩, deleted, done⟩ := Throwing.ok_of_bind edited
      obtain ⟨rfl, rfl⟩ := Prod.mk.inj (Except.ok.inj done)
      rw [List.length_map]
      exact localDeleteLoop_clock (e := { e with redoStack := [] }) count deleted
  | undo =>
      obtain ⟨⟨outcome, e₁⟩, undone, done⟩ := Throwing.ok_of_bind edited
      obtain ⟨rfl, rfl⟩ := Prod.mk.inj (Except.ok.inj done)
      obtain ⟨⟨outcome', e₂, popped, pushed⟩, stepped, done⟩ := Throwing.ok_of_bind undone
      obtain ⟨rfl, rfl⟩ := Prod.mk.inj (Except.ok.inj done)
      have same := stepUndoRedo_clock stepped
      exact same
  | redo =>
      obtain ⟨⟨outcome, e₁⟩, redone, done⟩ := Throwing.ok_of_bind edited
      obtain ⟨rfl, rfl⟩ := Prod.mk.inj (Except.ok.inj done)
      obtain ⟨⟨outcome', e₂, popped, pushed⟩, stepped, done⟩ := Throwing.ok_of_bind redone
      obtain ⟨rfl, rfl⟩ := Prod.mk.inj (Except.ok.inj done)
      have same := stepUndoRedo_clock stepped
      exact same

theorem replay_mints {α : Type} (ops : List α) (clock : Nat) :
    (ops.map fun _ => ClockEvent.mint).foldl ClockEvent.replay clock = clock + ops.length := by
  induction ops generalizing clock with
  | nil => rfl
  | cons op ops ih =>
      rw [List.map_cons, List.foldl_cons, ih, List.length_cons, ClockEvent.replay]
      omega

/-- The events of a call lead from the clock before it to the clock behind it. -/
theorem call_clock (sound : e.Sound) {c : Call} (called : e.call c = .ok e') :
    e'.clock = (e.callEvents c).foldl ClockEvent.replay e.clock := by
  cases c with
  | applyRemote op context =>
      obtain ⟨⟨buffered, e₁⟩, applied, done⟩ := Throwing.ok_of_bind called
      obtain rfl := Except.ok.inj done
      exact applyRemote_clock applied
  | edit edit =>
      obtain ⟨⟨ops, e₁⟩, edited, done⟩ := Throwing.ok_of_bind called
      obtain rfl := Except.ok.inj done
      rw [callEvents, edited, replay_mints]
      exact edit_clock edited
  | setDeleteContext id context =>
      obtain rfl := Except.ok.inj called
      rfl
  | rejectPending id =>
      obtain rfl := Except.ok.inj called
      obtain ⟨pending, rejected, -⟩ := rejectPending_eq e id
      rw [rejected]
      rfl
  | tryRevertLocalInsert id =>
      obtain rfl := Except.ok.inj called
      obtain ⟨tree, reverted, -⟩ := sound.tryRevert_frame id
      rw [reverted]
      rfl
  | collect frontier options =>
      obtain ⟨⟨result, e₁⟩, ran, done⟩ := Throwing.ok_of_bind called
      obtain rfl := Except.ok.inj done
      obtain ⟨result', e₂, gone, ran', collected, -⟩ := sound.collect_spec frontier options
      obtain ⟨-, rfl⟩ := Prod.mk.inj (Except.ok.inj (ran'.symm.trans ran))
      obtain ⟨tree, contexts, rfl⟩ := collected.frame
      rfl

end Clock

end ConfluenceEditor
