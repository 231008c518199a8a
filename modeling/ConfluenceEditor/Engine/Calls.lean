/-
The engines that calls of the engine's methods reach.

`Call` lists the methods that change an engine. Every call is a path of changes (`call_moves`), so
every reachable engine is sound, and a call touches the pending buffer in one of two ways: entries
leave it, or the delivered operation is appended to it (`Buffered`).
-/

import ConfluenceEditor.Engine.Collect
import ConfluenceEditor.Library.Run

namespace ConfluenceEditor

namespace Engine

/-- A call of one of the engine's methods. -/
inductive Call where
  | applyRemote (op : Operation) (context : Option DeleteContext)
  | edit (edit : LocalEdit)
  | setDeleteContext (deleteOpId : Identifier) (context : DeleteContext)
  | rejectPending (id : Identifier)
  | tryRevertLocalInsert (id : Identifier)
  | collect (frontier : Int) (options : CollectOptions)

/-- The engine after a call. A call that throws leaves the engine as it was, so it is left out. -/
def call (e : Engine) : Call → Except String Engine
  | .applyRemote op context => do
      let (_, e) ← e.applyRemote op context
      .ok e
  | .edit edit => do
      let (_, e) ← e.edit edit
      .ok e
  | .setDeleteContext deleteOpId context => .ok (e.setDeleteContext deleteOpId context)
  | .rejectPending id => .ok (e.rejectPending id).2
  | .tryRevertLocalInsert id => .ok (e.tryRevertLocalInsert id).2
  | .collect frontier options => do
      let (_, e) ← e.collect frontier options
      .ok e

/-- Calls lead from a new engine to this one. -/
def Reachable (e : Engine) : Prop := ∃ replicaId, Run.Reaches call (new replicaId) e

variable {e e' : Engine}

theorem rejectPending_eq (e : Engine) (id : Identifier) : ∃ pending,
    (e.rejectPending id).2 = { e with pending } ∧ pending.Sublist e.pending := by
  unfold rejectPending
  split_ifs
  · exact ⟨_, rfl, List.eraseP_sublist⟩
  · exact ⟨e.pending, rfl, List.Sublist.refl _⟩

theorem call_moves (sound : e.Sound) {c : Call} (called : e.call c = .ok e') : Moves e e' := by
  cases c with
  | applyRemote op context =>
      obtain ⟨⟨buffered, e₁⟩, applied, done⟩ := Throwing.ok_of_bind called
      obtain rfl := Except.ok.inj done
      exact applyRemote_moves applied
  | edit edit =>
      obtain ⟨⟨ops, e₁⟩, edited, done⟩ := Throwing.ok_of_bind called
      obtain rfl := Except.ok.inj done
      exact edit_moves sound edited
  | setDeleteContext id context =>
      obtain rfl := Except.ok.inj called
      exact .single (move_idle rfl rfl rfl (le_refl _))
  | rejectPending id =>
      obtain rfl := Except.ok.inj called
      obtain ⟨pending, rejected, -⟩ := rejectPending_eq e id
      rw [rejected]
      exact .single (move_idle rfl rfl rfl (le_refl _))
  | tryRevertLocalInsert id =>
      obtain rfl := Except.ok.inj called
      exact tryRevertLocalInsert_moves e id
  | collect frontier options =>
      obtain ⟨⟨result, e₁⟩, ran, done⟩ := Throwing.ok_of_bind called
      obtain rfl := Except.ok.inj done
      obtain ⟨result', e₂, gone, ran', collected, -⟩ := sound.collect_spec frontier options
      obtain ⟨-, rfl⟩ := Prod.mk.inj (Except.ok.inj (ran'.symm.trans ran))
      exact collected.moves

theorem sound_of_reaches {replicaId : Nat} (reached : Run.Reaches call (new replicaId) e) :
    e.Sound :=
  reached.invariant (sound_new replicaId) fun _ _ _ sound called =>
    sound.moves (call_moves sound called)

theorem Reachable.sound (reachable : e.Reachable) : e.Sound := by
  obtain ⟨replicaId, reached⟩ := reachable
  exact sound_of_reaches reached

/-- What a change keeps holds of every reachable engine. -/
theorem Reachable.keeps {P : Engine → Prop} (reachable : e.Reachable)
    (start : ∀ replicaId, P (new replicaId))
    (kept : ∀ {e e'}, e.Sound → Move e e' → P e → P e') : P e := by
  obtain ⟨replicaId, reached⟩ := reachable
  have both : e.Sound ∧ P e := by
    refine reached.invariant (P := fun e => e.Sound ∧ P e) ⟨sound_new replicaId, start replicaId⟩
      fun s c s' holds called => ?_
    refine Moves.keeps (P := fun e => e.Sound ∧ P e) (call_moves holds.1 called) ?_ holds
    exact fun move both => ⟨both.1.move move, kept both.1 move both.2⟩
  exact both.2

/-! ### The pending buffer -/

theorem doApply_pending {op : Operation} (fresh : op.id ∉ e.applied)
    (applied : e.doApply op = .ok e') : e'.pending = e.pending := by
  obtain ⟨e₁, kind, done⟩ := Throwing.ok_of_bind applied
  obtain rfl := Except.ok.inj done
  obtain ⟨counters, noted⟩ := noteCounter_eq (e.observe op.id.c) op.id
  rw [noted] at kind
  obtain ⟨tree, contexts, rfl, -⟩ := applyKind_change (by exact fresh) kind
  rfl

theorem drainPass_pending {offered kept : List Operation} {progressed : Bool}
    (swept : e.drainPass offered = .ok (e', kept, progressed)) :
    kept.Sublist offered ∧ e'.pending = e.pending := by
  induction offered generalizing e' kept progressed with
  | nil =>
      obtain ⟨rfl, same⟩ := Prod.mk.inj (Except.ok.inj swept)
      obtain ⟨rfl, -⟩ := Prod.mk.inj same
      exact ⟨List.Sublist.refl _, rfl⟩
  | cons op offered ih =>
      obtain ⟨⟨e₁, kept₁, progressed₁⟩, first, swept⟩ := Throwing.ok_of_bind swept
      obtain ⟨sub, pending⟩ := ih first
      simp only at swept
      split_ifs at swept with known ready
      · obtain ⟨rfl, same⟩ := Prod.mk.inj (Except.ok.inj swept)
        obtain ⟨rfl, -⟩ := Prod.mk.inj same
        exact ⟨sub.cons _, pending⟩
      · obtain ⟨e₂, applied, done⟩ := Throwing.ok_of_bind swept
        obtain ⟨rfl, same⟩ := Prod.mk.inj (Except.ok.inj done)
        obtain ⟨rfl, -⟩ := Prod.mk.inj same
        have fresh : op.id ∉ e₁.applied := fun member => known (decide_eq_true member)
        exact ⟨sub.cons _, (doApply_pending fresh applied).trans pending⟩
      · obtain ⟨rfl, same⟩ := Prod.mk.inj (Except.ok.inj swept)
        obtain ⟨rfl, -⟩ := Prod.mk.inj same
        exact ⟨sub.cons_cons _, pending⟩

theorem drainLoop_pending (sweeps : Nat) {e : Engine} (drained : drainLoop sweeps e = .ok e') :
    e'.pending.Sublist e.pending := by
  induction sweeps generalizing e with
  | zero =>
      obtain rfl := Except.ok.inj drained
      exact List.Sublist.refl _
  | succ sweeps ih =>
      obtain ⟨⟨e₁, kept, progressed⟩, swept, drained⟩ := Throwing.ok_of_bind drained
      have sub := (drainPass_pending swept).1
      simp only at drained
      split_ifs at drained
      · exact (ih drained).trans sub
      · obtain rfl := Except.ok.inj drained
        exact sub

/-- Nothing that was offered is lost. -/
theorem drainPass_complete {offered kept : List Operation} {progressed : Bool}
    (swept : e.drainPass offered = .ok (e', kept, progressed)) :
    ∀ x ∈ offered, x ∈ kept ∨ x.id ∈ e'.applied := by
  induction offered generalizing e' kept progressed with
  | nil => simp
  | cons op offered ih =>
      obtain ⟨⟨e₁, kept₁, progressed₁⟩, first, swept⟩ := Throwing.ok_of_bind swept
      have rest := ih first
      simp only at swept
      split_ifs at swept with known ready
      · obtain ⟨rfl, same⟩ := Prod.mk.inj (Except.ok.inj swept)
        obtain ⟨rfl, -⟩ := Prod.mk.inj same
        exact List.forall_mem_cons.mpr ⟨Or.inr (of_decide_eq_true known), rest⟩
      · obtain ⟨e₂, applied, done⟩ := Throwing.ok_of_bind swept
        obtain ⟨rfl, same⟩ := Prod.mk.inj (Except.ok.inj done)
        obtain ⟨rfl, -⟩ := Prod.mk.inj same
        have moves := doApply_moves (fun member => known (decide_eq_true member)) applied
        refine List.forall_mem_cons.mpr ⟨Or.inr ?_, fun x member => ?_⟩
        · obtain ⟨e₃, -, marked⟩ := Throwing.ok_of_bind applied
          obtain rfl := Except.ok.inj marked
          exact List.mem_cons_self
        · exact (rest x member).imp_right moves.applied_mono
      · obtain ⟨rfl, same⟩ := Prod.mk.inj (Except.ok.inj swept)
        obtain ⟨rfl, -⟩ := Prod.mk.inj same
        refine List.forall_mem_cons.mpr ⟨Or.inl List.mem_cons_self, fun x member => ?_⟩
        exact (rest x member).imp_left (List.mem_cons_of_mem _)

theorem drainLoop_complete (sweeps : Nat) {e : Engine} (drained : drainLoop sweeps e = .ok e') :
    ∀ x ∈ e.pending, x ∈ e'.pending ∨ x.id ∈ e'.applied := by
  induction sweeps generalizing e with
  | zero =>
      obtain rfl := Except.ok.inj drained
      exact fun x member => Or.inl member
  | succ sweeps ih =>
      obtain ⟨⟨e₁, kept, progressed⟩, swept, drained⟩ := Throwing.ok_of_bind drained
      have here := drainPass_complete swept
      simp only at drained
      split_ifs at drained
      · intro x member
        rcases here x member with stays | known
        · exact ih drained x stays
        · exact Or.inr ((drainLoop_moves _ drained).applied_mono known)
      · obtain rfl := Except.ok.inj drained
        exact here

/-- A delivered operation, and those that waited, are buffered or applied afterwards. -/
theorem applyRemote_complete {op : Operation} {context : Option DeleteContext} {buffered : Bool}
    (applied : e.applyRemote op context = .ok (buffered, e')) :
    ∀ x ∈ e.pending ++ [op], x ∈ e'.pending ∨ x.id ∈ e'.applied := by
  obtain ⟨contexts, recorded⟩ := Built.recordContext_eq e op context
  rw [applyRemote, recorded] at applied
  set e₀ : Engine := { e with deleteContext := contexts }
  rw [List.forall_mem_append, List.forall_mem_singleton]
  split_ifs at applied with known ready
  · obtain ⟨-, rfl⟩ := Prod.mk.inj (Except.ok.inj applied)
    exact ⟨fun x member => Or.inl member, Or.inr (of_decide_eq_true known)⟩
  · obtain ⟨e₁, done, applied⟩ := Throwing.ok_of_bind applied
    obtain ⟨e₂, drained, applied⟩ := Throwing.ok_of_bind applied
    obtain ⟨-, rfl⟩ := Prod.mk.inj (Except.ok.inj applied)
    have fresh : op.id ∉ e₀.applied := fun member => known (decide_eq_true member)
    have same : e₁.pending = e₀.pending := doApply_pending fresh done
    refine ⟨same ▸ drainLoop_complete _ drained, Or.inr ?_⟩
    obtain ⟨e₃, -, marked⟩ := Throwing.ok_of_bind done
    obtain rfl := Except.ok.inj marked
    exact (drainLoop_moves _ drained).applied_mono List.mem_cons_self
  · obtain ⟨-, rfl⟩ := Prod.mk.inj (Except.ok.inj applied)
    exact ⟨fun x member => Or.inl (List.mem_append_left _ member), Or.inl (by simp)⟩

/-- Entries left the buffer, or an operation that was not applied before was appended. -/
inductive Buffered (e e' : Engine) (op : Operation) : Prop
  | shrunk (sub : e'.pending.Sublist e.pending)
  | appended (fresh : op.id ∉ e.applied) (pending : e'.pending = e.pending ++ [op])

theorem applyRemote_pending {op : Operation} {context : Option DeleteContext} {buffered : Bool}
    (applied : e.applyRemote op context = .ok (buffered, e')) : Buffered e e' op := by
  obtain ⟨contexts, recorded⟩ := Built.recordContext_eq e op context
  rw [applyRemote, recorded] at applied
  set e₀ : Engine := { e with deleteContext := contexts }
  split_ifs at applied with known ready
  · obtain ⟨-, rfl⟩ := Prod.mk.inj (Except.ok.inj applied)
    exact .shrunk (List.Sublist.refl _)
  · obtain ⟨e₁, done, applied⟩ := Throwing.ok_of_bind applied
    obtain ⟨e₂, drained, applied⟩ := Throwing.ok_of_bind applied
    obtain ⟨-, rfl⟩ := Prod.mk.inj (Except.ok.inj applied)
    have fresh : op.id ∉ e₀.applied := fun member => known (decide_eq_true member)
    have same : e₁.pending = e₀.pending := doApply_pending fresh done
    exact .shrunk (same ▸ drainLoop_pending _ drained)
  · obtain ⟨-, rfl⟩ := Prod.mk.inj (Except.ok.inj applied)
    exact .appended (fun member => known (decide_eq_true member)) rfl

/-- Only a delivery lets the buffer grow. -/
theorem call_pending (sound : e.Sound) {c : Call} (called : e.call c = .ok e') :
    e'.pending.Sublist e.pending ∨ ∃ op context, c = .applyRemote op context ∧
      op.id ∉ e.applied ∧ e'.pending = e.pending ++ [op] := by
  cases c with
  | applyRemote op context =>
      obtain ⟨⟨buffered, e₁⟩, applied, done⟩ := Throwing.ok_of_bind called
      obtain rfl := Except.ok.inj done
      rcases applyRemote_pending applied with sub | ⟨fresh, pending⟩
      · exact Or.inl sub
      · exact Or.inr ⟨op, context, rfl, fresh, pending⟩
  | edit edit =>
      obtain ⟨⟨ops, e₁⟩, edited, done⟩ := Throwing.ok_of_bind called
      obtain rfl := Except.ok.inj done
      rw [(sound.edit_spec edited).pending]
      exact Or.inl (List.Sublist.refl _)
  | setDeleteContext id context =>
      obtain rfl := Except.ok.inj called
      exact Or.inl (List.Sublist.refl _)
  | rejectPending id =>
      obtain rfl := Except.ok.inj called
      obtain ⟨pending, rejected, sub⟩ := rejectPending_eq e id
      rw [rejected]
      exact Or.inl sub
  | tryRevertLocalInsert id =>
      obtain rfl := Except.ok.inj called
      obtain ⟨tree, reverted, -⟩ := sound.tryRevert_frame id
      rw [reverted]
      exact Or.inl (List.Sublist.refl _)
  | collect frontier options =>
      obtain ⟨⟨result, e₁⟩, ran, done⟩ := Throwing.ok_of_bind called
      obtain rfl := Except.ok.inj done
      obtain ⟨result', e₂, gone, ran', collected, -⟩ := sound.collect_spec frontier options
      obtain ⟨-, rfl⟩ := Prod.mk.inj (Except.ok.inj (ran'.symm.trans ran))
      obtain ⟨tree, contexts, rfl⟩ := collected.frame
      exact Or.inl (List.Sublist.refl _)

end Engine

end ConfluenceEditor
