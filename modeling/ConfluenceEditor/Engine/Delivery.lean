/-
Remote delivery: the pending buffer, the drain loop and `applyRemote`.

A sweep of the drain loop applies or discards entries of the buffer and keeps the others
(`drainPass_spec`); as long as a sweep makes progress the buffer shrinks, so the loop's bound is
never reached and it ends `Settled`, with no entry that could be applied (`drain_spec`).
`applyRemote_spec` puts this together: the engine is built from its old history and some of the
delivered operations, and every other one of them is still in the buffer.
-/

import ConfluenceEditor.Engine.History

namespace ConfluenceEditor

namespace Engine

/-- No buffered operation is a duplicate or could be applied. -/
def Settled (e : Engine) : Prop :=
  ∀ op ∈ e.pending, e.hasApplied op.id = false ∧ e.ready op = false

theorem settled_new (replicaId : Nat) : (new replicaId).Settled := fun _ member => by cases member

end Engine

open Engine

/-- What became of some offered operations: `applied` extended the history in this order, the rest
is buffered or was a duplicate. -/
structure Absorbed (e e' : Engine) (history applied offered : List Operation) : Prop where
  built : Built e' (history ++ applied)
  replicaId : e'.replicaId = e.replicaId
  undoStack : e'.undoStack = e.undoStack
  redoStack : e'.redoStack = e.redoStack
  clock : e.clock ≤ e'.clock
  appliedFrom : ∀ op ∈ applied, op ∈ offered
  pendingFrom : e'.pending.Sublist offered
  complete : ∀ op ∈ offered, op ∈ e'.pending ∨ e'.hasApplied op.id = true

namespace Built

variable {e e' : Engine} {history : List Operation} {op : Operation}

/-- Applied operations stay applied when the history grows. -/
theorem hasApplied_mono {later : List Operation} (built : Built e history)
    (built' : Built e' (history ++ later)) {id : Identifier} (known : e.hasApplied id = true) :
    e'.hasApplied id = true := by
  obtain ⟨op, member, same⟩ := built.hasApplied_iff.mp known
  exact built'.hasApplied_iff.mpr ⟨op, List.mem_append_left _ member, same⟩

end Built

namespace Absorbed

variable {e e₁ e₂ : Engine} {history applied applied₁ applied₂ offered later : List Operation}

theorem refl (built : Built e history) : Absorbed e e history [] (e.pending ++ []) where
  built := by rwa [List.append_nil]
  replicaId := rfl
  undoStack := rfl
  redoStack := rfl
  clock := le_refl _
  appliedFrom := nofun
  pendingFrom := List.sublist_append_left ..
  complete op member := Or.inl (by rwa [List.append_nil] at member)

/-- Operations offered after others. -/
theorem trans (first : Absorbed e e₁ history applied₁ offered)
    (second : Absorbed e₁ e₂ (history ++ applied₁) applied₂ (e₁.pending ++ later)) :
    Absorbed e e₂ history (applied₁ ++ applied₂) (offered ++ later) where
  built := by
    rw [← List.append_assoc]
    exact second.built
  replicaId := second.replicaId.trans first.replicaId
  undoStack := second.undoStack.trans first.undoStack
  redoStack := second.redoStack.trans first.redoStack
  clock := le_trans first.clock second.clock
  appliedFrom op member := by
    rcases List.mem_append.mp member with early | late
    · exact List.mem_append_left _ (first.appliedFrom op early)
    · rcases List.mem_append.mp (second.appliedFrom op late) with waiting | new
      · exact List.mem_append_left _ (first.pendingFrom.subset waiting)
      · exact List.mem_append_right _ new
  pendingFrom := second.pendingFrom.trans (first.pendingFrom.append_right later)
  complete op member := by
    rcases List.mem_append.mp member with early | late
    · rcases first.complete op early with waiting | known
      · exact second.complete op (List.mem_append_left _ waiting)
      · exact Or.inr (first.built.hasApplied_mono second.built known)
    · exact second.complete op (List.mem_append_right _ late)

/-- The recorded contexts do not matter. -/
theorem congr {contexts' : Identifier → Option DeleteContext}
    (contexts : Identifier → Option DeleteContext)
    (absorbed : Absorbed e e₁ history applied offered) {e' e₁' : Engine}
    (start : e' = { e with deleteContext := contexts })
    (finish : e₁' = { e₁ with deleteContext := contexts' }) :
    Absorbed e' e₁' history applied offered := by
  subst start finish
  exact ⟨absorbed.built.congr rfl rfl (le_refl _), absorbed.replicaId, absorbed.undoStack,
    absorbed.redoStack, absorbed.clock, absorbed.appliedFrom, absorbed.pendingFrom,
    absorbed.complete⟩

end Absorbed

namespace Built

variable {e e' : Engine} {history : List Operation} {op : Operation}

/-! ### The drain loop -/

/-- What one sweep does. -/
structure Swept (e e' : Engine) (history applied offered kept : List Operation)
    (progressed : Bool) : Prop where
  built : Built e' (history ++ applied)
  buffers : e.SameBuffers e'
  clock : e.clock ≤ e'.clock
  appliedFrom : ∀ op ∈ applied, op ∈ offered
  keptFrom : kept.Sublist offered
  complete : ∀ op ∈ offered, op ∈ kept ∨ e'.hasApplied op.id = true
  shrinks : progressed = true → kept.length < offered.length
  stuck : progressed = false → e' = e ∧ kept = offered ∧
    ∀ op ∈ offered, e.hasApplied op.id = false ∧ e.ready op = false

theorem drainPass_spec (built : Built e history) (offered : List Operation) :
    ∃ e' kept progressed applied, e.drainPass offered = .ok (e', kept, progressed) ∧
      Swept e e' history applied offered kept progressed := by
  induction offered with
  | nil =>
      exact ⟨e, [], false, [], rfl, by simpa using built, ⟨rfl, rfl, rfl, rfl⟩, le_refl _,
        by simp, List.Sublist.refl _, by simp, by simp, by simp⟩
  | cons op offered ih =>
      obtain ⟨e₁, kept, progressed, applied, swept, spec⟩ := ih
      have later : ∀ {x}, x ∈ kept ∨ e₁.hasApplied x.id = true →
          x ∈ op :: kept ∨ e₁.hasApplied x.id = true := fun h => h.imp_left (List.mem_cons_of_mem _)
      by_cases known : e₁.hasApplied op.id = true
      · -- a duplicate is discarded
        refine ⟨e₁, kept, true, applied, by simp [drainPass, swept, known, bind, Except.bind],
          spec.built, spec.buffers, spec.clock, fun x member => ?_, spec.keptFrom.cons op,
          fun x member => ?_, fun _ => ?_, by simp⟩
        · exact List.mem_cons_of_mem _ (spec.appliedFrom x member)
        · rcases List.mem_cons.mp member with rfl | inside
          · exact Or.inr known
          · exact spec.complete x inside
        · exact Nat.lt_succ_of_le spec.keptFrom.length_le
      · rw [Bool.not_eq_true] at known
        by_cases ready : e₁.ready op = true
        · -- a ready operation is applied
          obtain ⟨e₂, done, extended⟩ := spec.built.doApply_spec known ready
          refine ⟨e₂, kept, true, applied ++ [op],
            by simp [drainPass, swept, known, ready, done, bind, Except.bind],
            by rw [← List.append_assoc]; exact extended.built, spec.buffers.trans extended.buffers,
            le_trans spec.clock (by rw [extended.clock]; exact le_max_left ..),
            fun x member => ?_, spec.keptFrom.cons op, fun x member => ?_, fun _ => ?_, by simp⟩
          · rcases List.mem_append.mp member with inside | last
            · exact List.mem_cons_of_mem _ (spec.appliedFrom x inside)
            · rw [List.mem_singleton.mp last]
              exact List.mem_cons_self
          · rcases List.mem_cons.mp member with rfl | inside
            · exact Or.inr (extended.built.hasApplied_iff.mpr ⟨x, by simp, rfl⟩)
            · exact (spec.complete x inside).imp_right
                (spec.built.hasApplied_mono extended.built)
          · exact Nat.lt_succ_of_le spec.keptFrom.length_le
        · -- anything else stays
          rw [Bool.not_eq_true] at ready
          refine ⟨e₁, op :: kept, progressed, applied,
            by simp [drainPass, swept, known, ready, bind, Except.bind],
            spec.built, spec.buffers, spec.clock, fun x member => ?_, spec.keptFrom.cons_cons op,
            fun x member => ?_, fun moved => ?_, fun still => ?_⟩
          · exact List.mem_cons_of_mem _ (spec.appliedFrom x member)
          · rcases List.mem_cons.mp member with rfl | inside
            · exact Or.inl List.mem_cons_self
            · exact later (spec.complete x inside)
          · exact Nat.succ_lt_succ (spec.shrinks moved)
          · obtain ⟨rfl, rfl, stuck⟩ := spec.stuck still
            refine ⟨rfl, rfl, fun x member => ?_⟩
            rcases List.mem_cons.mp member with rfl | inside
            · exact ⟨known, ready⟩
            · exact stuck x inside

/-- The loop ends settled before its bound is used up. -/
theorem drainLoop_spec (sweeps : Nat) {e : Engine} {history : List Operation}
    (built : Built e history) (enough : e.pending.length < sweeps) :
    ∃ e' applied, drainLoop sweeps e = .ok e' ∧
      Absorbed e e' history applied e.pending ∧ e'.Settled := by
  induction sweeps generalizing e history with
  | zero => omega
  | succ sweeps ih =>
      obtain ⟨e₁, kept, progressed, applied, swept, spec⟩ := built.drainPass_spec e.pending
      have built₁ : Built { e₁ with pending := kept } (history ++ applied) :=
        spec.built.congr rfl rfl (le_refl _)
      cases progressed with
      | false =>
          obtain ⟨rfl, rfl, stuck⟩ := spec.stuck rfl
          refine ⟨e₁, applied, by simp [drainLoop, swept, bind, Except.bind], ⟨spec.built,
            rfl, rfl, rfl, le_refl _, spec.appliedFrom, List.Sublist.refl _, spec.complete⟩, stuck⟩
      | true =>
          have fewer : kept.length < sweeps := by
            have := spec.shrinks rfl
            omega
          obtain ⟨e₂, applied₂, looped, absorbed, settled⟩ := ih built₁ fewer
          refine ⟨e₂, applied ++ applied₂, by simp [drainLoop, swept, looped, bind, Except.bind],
            ⟨?_, ?_, ?_, ?_, ?_, ?_, ?_, ?_⟩, settled⟩
          · rw [← List.append_assoc]
            exact absorbed.built
          · exact absorbed.replicaId.trans spec.buffers.replicaId
          · exact absorbed.undoStack.trans spec.buffers.undoStack
          · exact absorbed.redoStack.trans spec.buffers.redoStack
          · exact le_trans spec.clock absorbed.clock
          · intro x member
            rcases List.mem_append.mp member with first | second
            · exact spec.appliedFrom x first
            · exact spec.keptFrom.subset (absorbed.appliedFrom x second)
          · exact absorbed.pendingFrom.trans spec.keptFrom
          · intro x member
            rcases spec.complete x member with inKept | known
            · exact absorbed.complete x inKept
            · exact Or.inr (spec.built.hasApplied_mono absorbed.built known)

theorem drain_spec (built : Built e history) :
    ∃ e' applied, e.drain = .ok e' ∧ Absorbed e e' history applied e.pending ∧ e'.Settled :=
  built.drainLoop_spec _ (Nat.lt_succ_self _)

/-! ### One remote operation -/

theorem recordContext_eq (e : Engine) (op : Operation) (context : Option DeleteContext) :
    ∃ contexts, e.recordContext op context = { e with deleteContext := contexts } := by
  unfold recordContext
  split
  · exact ⟨_, rfl⟩
  · exact ⟨e.deleteContext, rfl⟩

@[simp] theorem recordContext_none (e : Engine) (op : Operation) :
    e.recordContext op none = e := by
  cases op <;> rfl

/-- A duplicate changes at most the recorded contexts. -/
theorem applyRemote_duplicate (known : e.hasApplied op.id = true)
    (context : Option DeleteContext) :
    ∃ contexts, e.applyRemote op context = .ok (false, { e with deleteContext := contexts }) := by
  obtain ⟨contexts, recorded⟩ := recordContext_eq e op context
  refine ⟨contexts, ?_⟩
  rw [applyRemote, recorded]
  exact if_pos known

/-- A fresh, ready operation is applied, and the buffer is drained after it. -/
theorem applyRemote_fresh_spec (built : Built e history) (fresh : e.hasApplied op.id = false)
    (ready : e.ready op = true) (context : Option DeleteContext) :
    ∃ e' released, e.applyRemote op context = .ok (false, e') ∧
      Absorbed e e' history (op :: released) (e.pending ++ [op]) ∧ e'.Settled ∧
      ∀ x ∈ released, x ∈ e.pending := by
  obtain ⟨contexts, recorded⟩ := recordContext_eq e op context
  set e₀ : Engine := { e with deleteContext := contexts } with hstart
  have built₀ : Built e₀ history := built.congr rfl rfl (le_refl _)
  have fresh₀ : e₀.hasApplied op.id = false := fresh
  have ready₀ : e₀.ready op = true := ready
  obtain ⟨e₁, done, extended⟩ := built₀.doApply_spec fresh₀ ready₀
  obtain ⟨e₂, released, drained, absorbed, settled⟩ := extended.built.drain_spec
  have pending : e₁.pending = e.pending := extended.buffers.pending
  rw [pending] at absorbed
  have done₂ : e₂.hasApplied op.id = true := extended.built.hasApplied_mono absorbed.built
    (extended.built.hasApplied_iff.mpr ⟨op, by simp, rfl⟩)
  refine ⟨e₂, released, ?_, ⟨?_, ?_, ?_, ?_, ?_, ?_, ?_, ?_⟩, settled, absorbed.appliedFrom⟩
  · rw [applyRemote, recorded]
    simp [fresh₀, ready₀, done, drained, bind, Except.bind]
  · rw [List.append_cons]
    exact absorbed.built
  · exact absorbed.replicaId.trans extended.buffers.replicaId
  · exact absorbed.undoStack.trans extended.buffers.undoStack
  · exact absorbed.redoStack.trans extended.buffers.redoStack
  · exact le_trans (by rw [extended.clock]; exact le_max_left ..) absorbed.clock
  · intro x member
    rcases List.mem_cons.mp member with rfl | inside
    · simp
    · exact List.mem_append_left _ (absorbed.appliedFrom x inside)
  · exact absorbed.pendingFrom.trans (List.sublist_append_left ..)
  · intro x member
    rcases List.mem_append.mp member with inside | last
    · exact absorbed.complete x inside
    · rw [List.mem_singleton.mp last]
      exact Or.inr done₂

theorem applyRemote_spec (built : Built e history) (op : Operation)
    (context : Option DeleteContext) :
    ∃ buffered e' applied, e.applyRemote op context = .ok (buffered, e') ∧
      Absorbed e e' history applied (e.pending ++ [op]) ∧ (e.Settled → e'.Settled) ∧
      (buffered = false → e'.hasApplied op.id = true) := by
  by_cases known : e.hasApplied op.id = true
  · obtain ⟨contexts, same⟩ := applyRemote_duplicate known context
    refine ⟨false, { e with deleteContext := contexts }, [], same, ⟨?_, rfl, rfl, rfl, le_refl _,
      by simp, List.sublist_append_left .., fun x member => ?_⟩, fun settled => settled,
      fun _ => known⟩
    · rw [List.append_nil]
      exact built.congr rfl rfl (le_refl _)
    · rcases List.mem_append.mp member with inside | last
      · exact Or.inl inside
      · rw [List.mem_singleton.mp last]
        exact Or.inr known
  · rw [Bool.not_eq_true] at known
    by_cases ready : e.ready op = true
    · obtain ⟨e', released, applied, absorbed, settled, -⟩ :=
        built.applyRemote_fresh_spec known ready context
      refine ⟨false, e', op :: released, applied, absorbed, fun _ => settled, fun _ => ?_⟩
      exact absorbed.built.hasApplied_iff.mpr ⟨op, by simp, rfl⟩
    · rw [Bool.not_eq_true] at ready
      obtain ⟨contexts, recorded⟩ := recordContext_eq e op context
      set e₀ : Engine := { e with deleteContext := contexts }
      have known₀ : e₀.hasApplied op.id = false := known
      have ready₀ : e₀.ready op = false := ready
      refine ⟨true, { e₀ with pending := e₀.pending ++ [op] }, [], ?_,
        ⟨by rw [List.append_nil]; exact built.congr rfl rfl (le_refl _), rfl, rfl, rfl, le_refl _,
          by simp, List.Sublist.refl _, fun x member => Or.inl member⟩,
        fun settled x member => ?_, nofun⟩
      · rw [applyRemote, recorded]
        simp [known₀, ready₀]
      · rcases List.mem_append.mp member with inside | last
        · exact settled x inside
        · rw [List.mem_singleton.mp last]
          exact ⟨known, ready⟩

/-- A fresh, ready operation on an empty buffer is applied, and nothing else happens. -/
theorem applyRemote_ready (built : Built e history) (empty : e.pending = [])
    (fresh : e.hasApplied op.id = false) (ready : e.ready op = true)
    (context : Option DeleteContext) :
    ∃ e', e.applyRemote op context = .ok (false, e') ∧ Extended e e' history op := by
  obtain ⟨contexts, recorded⟩ := recordContext_eq e op context
  set e₀ : Engine := { e with deleteContext := contexts } with hstart
  have built₀ : Built e₀ history := built.congr rfl rfl (le_refl _)
  have known : e₀.hasApplied op.id = false := fresh
  have next : e₀.ready op = true := ready
  obtain ⟨e', done, extended⟩ := built₀.doApply_spec known next
  have pending : e'.pending = [] := extended.buffers.pending.trans empty
  have drained : e'.drain = .ok e' := by
    rw [drain, pending]
    simp only [drainLoop, pending, drainPass, bind, Except.bind, Bool.false_eq_true, if_false]
    rw [← pending]
  refine ⟨e', ?_, extended.built, ⟨extended.buffers.replicaId, extended.buffers.pending,
    extended.buffers.undoStack, extended.buffers.redoStack⟩, extended.clock, extended.skeleton⟩
  rw [applyRemote, recorded]
  simp [known, next, done, drained, bind, Except.bind]

end Built

end ConfluenceEditor
