/-
Delivering an operation again.

An operation that was applied is ignored when it comes again: nothing but the recorded context of a
delete may change (`Same`). An operation that still waits in the pending buffer is appended to it a
second time, and a rejection takes out only one of the copies. While no operation is delivered that
waits, redeliveries have no effect at all (`redelivery_idempotent`).
-/

import ConfluenceEditor.Engine.Calls

namespace ConfluenceEditor

namespace Engine

variable {e e' f f' : Engine} {op : Operation}

/-- The same engine, up to the recorded contexts of deletes. -/
def Same (e f : Engine) : Prop := ∃ deleteContext, f = { e with deleteContext }

theorem Same.refl (e : Engine) : Same e e := ⟨e.deleteContext, rfl⟩

theorem Same.trans {g : Engine} (first : Same e f) (second : Same f g) : Same e g := by
  obtain ⟨contexts, rfl⟩ := first
  obtain ⟨contexts', rfl⟩ := second
  exact ⟨contexts', rfl⟩

theorem Same.symm (same : Same e f) : Same f e := by
  obtain ⟨contexts, rfl⟩ := same
  exact ⟨e.deleteContext, rfl⟩

/-! ### The contexts do not matter for a delivery -/

namespace Same

theorem applyInsert {ins : InsertOperation} (same : Same e f)
    (applied : e.applyInsert ins = .ok e') : ∃ f', f.applyInsert ins = .ok f' ∧ Same e' f' := by
  obtain ⟨contexts, rfl⟩ := same
  obtain ⟨tree, attached, done⟩ := Throwing.ok_of_bind applied
  obtain rfl := Except.ok.inj done
  refine ⟨{ e with tree, deleteContext := contexts }, ?_, contexts, rfl⟩
  show (do let tree ← e.tree.attach ins.id ins.value ins.bind ins.parent ins.side
           Except.ok { e with tree, deleteContext := contexts }) = _
  rw [attached]
  rfl

theorem applyDelete {del : DeleteOperation} (same : Same e f)
    (applied : e.applyDelete del = .ok e') : ∃ f', f.applyDelete del = .ok f' ∧ Same e' f' := by
  obtain ⟨contexts, rfl⟩ := same
  unfold Engine.applyDelete at applied ⊢
  cases found : e.tree.nodeByIdentifier del.target with
  | none =>
      rw [found] at applied
      cases applied
  | some n =>
      simp only [found] at applied ⊢
      obtain ⟨tree, set, done⟩ := Throwing.ok_of_bind applied
      obtain rfl := Except.ok.inj done
      refine ⟨{ e with tree, deleteContext := contexts }, ?_, contexts, rfl⟩
      simp only [set, bind, Except.bind]

theorem applyUndelete {und : UndeleteOperation} (same : Same e f)
    (applied : e.applyUndelete und = .ok e') :
    ∃ f', f.applyUndelete und = .ok f' ∧ Same e' f' := by
  obtain ⟨contexts, rfl⟩ := same
  unfold Engine.applyUndelete at applied ⊢
  cases found : e.tree.nodeByIdentifier und.target with
  | none =>
      rw [found] at applied
      cases applied
  | some n =>
      simp only [found] at applied ⊢
      cases dot : n.deletedBy with
      | none =>
          simp only [dot] at applied ⊢
          obtain rfl := Except.ok.inj applied
          exact ⟨_, rfl, contexts, rfl⟩
      | some d =>
          simp only [dot] at applied ⊢
          by_cases own : d.r = und.id.r
          · rw [if_pos own] at applied ⊢
            obtain ⟨tree, set, done⟩ := Throwing.ok_of_bind applied
            obtain rfl := Except.ok.inj done
            refine ⟨{ e with tree, deleteContext := Function.update contexts d none }, ?_,
              Function.update contexts d none, rfl⟩
            simp only [set, bind, Except.bind]
          · rw [if_neg own] at applied ⊢
            obtain rfl := Except.ok.inj applied
            exact ⟨_, rfl, contexts, rfl⟩

theorem applyKind (same : Same e f) (applied : e.applyKind op = .ok e') :
    ∃ f', f.applyKind op = .ok f' ∧ Same e' f' := by
  cases op with
  | insert ins => exact same.applyInsert applied
  | delete del => exact same.applyDelete applied
  | undelete und => exact same.applyUndelete applied

theorem doApply (same : Same e f) (applied : e.doApply op = .ok e') :
    ∃ f', f.doApply op = .ok f' ∧ Same e' f' := by
  obtain ⟨contexts, rfl⟩ := same
  obtain ⟨e₁, kind, done⟩ := Throwing.ok_of_bind applied
  obtain rfl := Except.ok.inj done
  obtain ⟨counters, noted⟩ := noteCounter_eq (e.observe op.id.c) op.id
  have noted' : ({ e with deleteContext := contexts }.observe op.id.c).noteCounter op.id =
      { (e.observe op.id.c).noteCounter op.id with deleteContext := contexts } := by
    unfold noteCounter Engine.observe
    simp only
    split
    · split_ifs <;> rfl
    · rfl
  obtain ⟨f₁, kind', contexts', rfl⟩ := applyKind (f := { (e.observe op.id.c).noteCounter op.id with
    deleteContext := contexts }) ⟨contexts, rfl⟩ kind
  refine ⟨{ e₁ with deleteContext := contexts' }.markApplied op.id, ?_, contexts', rfl⟩
  unfold Engine.doApply
  rw [noted', kind']
  rfl

theorem drainPass {offered kept : List Operation} {progressed : Bool} (same : Same e f)
    (swept : e.drainPass offered = .ok (e', kept, progressed)) :
    ∃ f', f.drainPass offered = .ok (f', kept, progressed) ∧ Same e' f' := by
  induction offered generalizing e' kept progressed with
  | nil =>
      obtain ⟨rfl, rest⟩ := Prod.mk.inj (Except.ok.inj swept)
      obtain ⟨rfl, rfl⟩ := Prod.mk.inj rest
      exact ⟨f, rfl, same⟩
  | cons op offered ih =>
      obtain ⟨⟨e₁, kept₁, progressed₁⟩, first, swept⟩ := Throwing.ok_of_bind swept
      obtain ⟨f₁, first', same₁⟩ := ih first
      have agree : f₁.hasApplied op.id = e₁.hasApplied op.id ∧ f₁.ready op = e₁.ready op := by
        obtain ⟨contexts, rfl⟩ := same₁
        exact ⟨rfl, by cases op <;> rfl⟩
      simp only [Engine.drainPass, first', bind, Except.bind, agree.1, agree.2] at swept ⊢
      split_ifs at swept ⊢ with known ready
      · obtain ⟨rfl, rest⟩ := Prod.mk.inj (Except.ok.inj swept)
        exact ⟨f₁, by rw [(Prod.mk.inj rest).1, (Prod.mk.inj rest).2], same₁⟩
      · obtain ⟨e₂, applied, done⟩ := Throwing.ok_of_bind swept
        obtain ⟨rfl, rest⟩ := Prod.mk.inj (Except.ok.inj done)
        obtain ⟨f₂, applied', same₂⟩ := same₁.doApply applied
        exact ⟨f₂, by simp only [applied', (Prod.mk.inj rest).1, (Prod.mk.inj rest).2], same₂⟩
      · obtain ⟨rfl, rest⟩ := Prod.mk.inj (Except.ok.inj swept)
        exact ⟨f₁, by rw [(Prod.mk.inj rest).1, (Prod.mk.inj rest).2], same₁⟩

theorem withPending (same : Same e f) (pending : List Operation) :
    Same { e with pending } { f with pending } := by
  obtain ⟨contexts, rfl⟩ := same
  exact ⟨contexts, rfl⟩

theorem pending (same : Same e f) : f.pending = e.pending := by
  obtain ⟨contexts, rfl⟩ := same
  rfl

theorem drainLoop (sweeps : Nat) {e f : Engine} (same : Same e f)
    (drained : Engine.drainLoop sweeps e = .ok e') :
    ∃ f', Engine.drainLoop sweeps f = .ok f' ∧ Same e' f' := by
  induction sweeps generalizing e f with
  | zero =>
      obtain rfl := Except.ok.inj drained
      exact ⟨f, rfl, same⟩
  | succ sweeps ih =>
      obtain ⟨⟨e₁, kept, progressed⟩, swept, drained⟩ := Throwing.ok_of_bind drained
      obtain ⟨f₁, swept', same₁⟩ := same.drainPass swept
      rw [← same.pending] at swept'
      simp only [Engine.drainLoop, swept', bind, Except.bind] at drained ⊢
      cases progressed with
      | true => exact ih (same₁.withPending kept) drained
      | false =>
          obtain rfl := Except.ok.inj drained
          exact ⟨_, rfl, same₁.withPending kept⟩

/-- A delivery does the same whatever contexts are recorded before it. -/
theorem applyRemote {context : Option DeleteContext} {buffered : Bool} (same : Same e f)
    (applied : e.applyRemote op context = .ok (buffered, e')) :
    ∃ f', f.applyRemote op context = .ok (buffered, f') ∧ Same e' f' := by
  obtain ⟨contexts, recorded⟩ := Built.recordContext_eq e op context
  obtain ⟨contexts', recorded'⟩ := Built.recordContext_eq f op context
  have same₀ : Same { e with deleteContext := contexts } { f with deleteContext := contexts' } := by
    obtain ⟨_, rfl⟩ := same
    exact ⟨contexts', rfl⟩
  rw [Engine.applyRemote, recorded] at applied
  rw [Engine.applyRemote, recorded']
  generalize { e with deleteContext := contexts } = e₀ at applied same₀
  generalize { f with deleteContext := contexts' } = f₀ at same₀ ⊢
  have agree : f₀.hasApplied op.id = e₀.hasApplied op.id ∧ f₀.ready op = e₀.ready op := by
    obtain ⟨contexts, rfl⟩ := same₀
    exact ⟨rfl, by cases op <;> rfl⟩
  simp only [agree.1, agree.2] at applied ⊢
  split_ifs at applied ⊢ with known ready
  · obtain ⟨rfl, rfl⟩ := Prod.mk.inj (Except.ok.inj applied)
    exact ⟨f₀, rfl, same₀⟩
  · obtain ⟨e₁, done, applied⟩ := Throwing.ok_of_bind applied
    obtain ⟨e₂, drained, applied⟩ := Throwing.ok_of_bind applied
    obtain ⟨rfl, rfl⟩ := Prod.mk.inj (Except.ok.inj applied)
    obtain ⟨f₁, done', same₁⟩ := same₀.doApply done
    obtain ⟨f₂, drained', same₂⟩ := same₁.drainLoop _ drained
    refine ⟨f₂, ?_, same₂⟩
    have drained'' : f₁.drain = .ok f₂ := by rwa [Engine.drain, same₁.pending]
    simp only [done', drained'', bind, Except.bind]
  · obtain ⟨rfl, rfl⟩ := Prod.mk.inj (Except.ok.inj applied)
    exact ⟨_, rfl, same₀.pending ▸ same₀.withPending _⟩

end Same

/-! ### Deliveries of operations that wait -/

/-- An operation with this identifier is in the pending buffer and not applied. -/
def waits (e : Engine) (id : Identifier) : Bool :=
  e.pending.any (fun op => op.id = id) && !e.hasApplied id

/-- A delivery: an operation and what is known about it. -/
abbrev Delivery := Operation × Option DeleteContext

def deliver (e : Engine) (delivery : Delivery) : Except String Engine :=
  e.call (.applyRemote delivery.1 delivery.2)

/-- The deliveries whose operations were not delivered before. -/
def withoutDuplicates (known : List Identifier) : List Delivery → List Delivery
  | [] => []
  | delivery :: later =>
      if delivery.1.id ∈ known then withoutDuplicates known later
      else delivery :: withoutDuplicates (delivery.1.id :: known) later

/-- No operation that waits is delivered by this call. -/
def Call.settled (e : Engine) : Call → Bool
  | .applyRemote op _ => !e.waits op.id
  | _ => true

/-- The operations that an engine has applied or buffered. -/
def received (e : Engine) : List Identifier := e.applied ++ e.pending.map Operation.id

theorem waits_eq_true {id : Identifier} :
    e.waits id = true ↔ id ∈ e.pending.map Operation.id ∧ id ∉ e.applied := by
  simp [waits, hasApplied]

/-- An operation that was received and does not wait was applied. -/
theorem mem_applied_of_received {id : Identifier} (known : id ∈ e.received)
    (settled : e.waits id = false) : id ∈ e.applied := by
  by_contra fresh
  have buffered := (List.mem_append.mp known).resolve_left fresh
  rw [waits_eq_true.mpr ⟨buffered, fresh⟩] at settled
  cases settled

/-- What was received stays received. -/
theorem received_mono {context : Option DeleteContext} {buffered : Bool}
    (applied : e.applyRemote op context = .ok (buffered, e')) {id : Identifier}
    (known : id ∈ e.received ∨ id = op.id) : id ∈ e'.received := by
  have complete := applyRemote_complete applied
  have offered : ∀ x ∈ e.pending ++ [op], x.id ∈ e'.received := fun x member =>
    (complete x member).elim
      (fun stays => List.mem_append_right _ (List.mem_map_of_mem stays))
      (fun done => List.mem_append_left _ done)
  rcases known with member | rfl
  · rcases List.mem_append.mp member with old | waiting
    · exact List.mem_append_left _ ((applyRemote_moves applied).applied_mono old)
    · obtain ⟨x, inside, rfl⟩ := List.mem_map.mp waiting
      exact offered x (List.mem_append_left _ inside)
  · exact offered op (by simp)

/-- Delivering an operation that was applied changes nothing. -/
theorem applyRemote_again (known : op.id ∈ e.applied) (context : Option DeleteContext) :
    ∃ e', e.applyRemote op context = .ok (false, e') ∧ Same e e' := by
  obtain ⟨contexts, ignored⟩ := Built.applyRemote_duplicate (decide_eq_true known) context
  exact ⟨_, ignored, contexts, rfl⟩

/-- A delivery that is buffered appends its operation, whether or not a copy of it waits. -/
theorem applyRemote_buffered {context : Option DeleteContext}
    (applied : e.applyRemote op context = .ok (true, e')) : e'.pending = e.pending ++ [op] := by
  obtain ⟨contexts, recorded⟩ := Built.recordContext_eq e op context
  rw [applyRemote, recorded] at applied
  split_ifs at applied with known ready
  · cases applied
  · obtain ⟨e₁, done, applied⟩ := Throwing.ok_of_bind applied
    obtain ⟨e₂, drained, applied⟩ := Throwing.ok_of_bind applied
    cases applied
  · obtain ⟨-, rfl⟩ := Prod.mk.inj (Except.ok.inj applied)
    rfl

/-- A delivery has no effect exactly when its operation was applied before. -/
theorem Sound.applyRemote_same_iff (sound : e.Sound) (op : Operation)
    (context : Option DeleteContext) :
    (∃ buffered e', e.applyRemote op context = .ok (buffered, e') ∧ Same e e') ↔
      e.hasApplied op.id = true := by
  constructor
  · rintro ⟨buffered, e', applied, contexts, rfl⟩
    obtain ⟨buffered', e₁, applied', -, done⟩ := sound.applyRemote_spec op context
    obtain ⟨rfl, rfl⟩ := Prod.mk.inj (Except.ok.inj (applied'.symm.trans applied))
    cases buffered' with
    | false => exact decide_eq_true (done rfl)
    | true =>
        have grown := applyRemote_buffered applied
        have lengths := congrArg List.length grown
        simp at lengths
  · intro known
    obtain ⟨e', applied, same⟩ := applyRemote_again (of_decide_eq_true known) context
    exact ⟨false, e', applied, same⟩

/-! ### Streams -/

variable {replicaId : Nat}

/-- While no delivered operation waits, the buffer holds one copy of each of its operations. -/
theorem nodup_pending (sound : e.Sound) {calls : List Call}
    (nodup : (e.pending.map Operation.id).Nodup)
    (each : Run.Each call (fun e c => c.settled e = true) e calls)
    (ran : Run.run call e calls = .ok e') : (e'.pending.map Operation.id).Nodup := by
  have always := Run.always_of_each
    (P := fun e : Engine => e.Sound ∧ (e.pending.map Operation.id).Nodup) ?_ ⟨sound, nodup⟩ each
  · exact (always.last ran).2
  · intro e c e' holds settled called
    refine ⟨holds.1.moves (call_moves holds.1 called), ?_⟩
    rcases call_pending holds.1 called with sub | ⟨op, context, rfl, fresh, pending⟩
    · exact holds.2.sublist (sub.map _)
    · have waits : e.waits op.id = false := by simpa [Call.settled] using settled
      have new : op.id ∉ e.pending.map Operation.id := fun member =>
        fresh (mem_applied_of_received (List.mem_append_right _ member) waits)
      rw [pending, List.map_append, List.map_singleton, ← List.concat_eq_append]
      exact holds.2.concat new

/-- A rejection takes out the only copy. -/
theorem rejectPending_no_copy (nodup : (e.pending.map Operation.id).Nodup) (id : Identifier) :
    id ∉ (e.rejectPending id).2.pending.map Operation.id := by
  unfold rejectPending
  split_ifs with waiting
  · have erased : (e.pending.eraseP fun op => op.id = id).map Operation.id =
        (e.pending.map Operation.id).erase id := by
      rw [List.erase_eq_eraseP', List.eraseP_map]
      refine congrArg (fun p => (e.pending.eraseP p).map Operation.id) (funext fun op => ?_)
      show decide (op.id = id) = (op.id == id)
      rw [beq_eq_decide]
    show id ∉ (e.pending.eraseP fun op => op.id = id).map Operation.id
    rw [erased]
    exact nodup.not_mem_erase
  · intro member
    obtain ⟨x, inside, same⟩ := List.mem_map.mp member
    exact waiting (List.any_eq_true.mpr ⟨x, inside, decide_eq_true same⟩)

/-- A stream of which no delivery waits ends where the stream without its duplicates ends. -/
theorem deliver_withoutDuplicates (sound : e.Sound) (same : Same e f) {known : List Identifier}
    (received : ∀ id ∈ known, id ∈ e.received) {stream : List Delivery}
    (each : Run.Each deliver (fun e delivery => e.waits delivery.1.id = false) e stream) :
    ∃ e' f', Run.run deliver e stream = .ok e' ∧
      Run.run deliver f (withoutDuplicates known stream) = .ok f' ∧ Same e' f' := by
  induction stream generalizing e f known with
  | nil => exact ⟨e, f, rfl, rfl, same⟩
  | cons delivery stream ih =>
      obtain ⟨op, context⟩ := delivery
      obtain ⟨buffered, e₁, applied, advanced, -⟩ := sound.applyRemote_spec op context
      have delivered : deliver e (op, context) = .ok e₁ := by
        show Except.bind (e.applyRemote op context) _ = _
        rw [applied]
        rfl
      obtain ⟨settled, rest⟩ := each e₁ delivered
      have received₁ : ∀ id, id ∈ known ∨ id = op.id → id ∈ e₁.received := fun id here =>
        received_mono applied (here.imp_left (received id))
      simp only [Run.run, delivered, withoutDuplicates]
      split_ifs with again
      · have old : op.id ∈ e.applied := mem_applied_of_received (received _ again) settled
        obtain ⟨e₂, applied', same'⟩ := applyRemote_again old context
        obtain ⟨-, rfl⟩ := Prod.mk.inj (Except.ok.inj (applied'.symm.trans applied))
        exact ih advanced.sound (same'.symm.trans same) (fun id member => received₁ id (.inl member))
          rest
      · obtain ⟨f₁, applied', same'⟩ := same.applyRemote applied
        have delivered' : deliver f (op, context) = .ok f₁ := by
          show Except.bind (f.applyRemote op context) _ = _
          rw [applied']
          rfl
        simp only [Run.run, delivered']
        exact ih advanced.sound same' (fun id member => received₁ id
          ((List.mem_cons.mp member).symm)) rest

end Engine

open Engine

/-- **Redelivery.** In every reached engine, an operation that was applied or waits can be delivered
again without effect exactly when it was applied. Along every run in which no operation is delivered
while it waits, a rejection leaves no copy of its operation in the buffer; and every such stream ends
in the same state as the stream without its duplicates. -/
theorem redelivery_idempotent (replicaId : Nat) :
    (∀ e, Run.Reaches call (new replicaId) e → ∀ op context,
      op.id ∈ e.applied ∨ op ∈ e.pending →
      ((∃ buffered e', e.applyRemote op context = .ok (buffered, e') ∧ Same e e') ↔
        e.waits op.id = false)) ∧
    (∀ calls e, Run.run call (new replicaId) calls = .ok e →
      Run.Each call (fun e c => c.settled e = true) (new replicaId) calls →
      ∀ id, id ∉ (e.rejectPending id).2.pending.map Operation.id) ∧
    (∀ e, Run.Reaches call (new replicaId) e → ∀ stream,
      Run.Each deliver (fun e delivery => e.waits delivery.1.id = false) e stream →
      ∃ e' f', Run.run deliver e stream = .ok e' ∧
        Run.run deliver e (withoutDuplicates e.received stream) = .ok f' ∧ Same e' f') := by
  refine ⟨fun e reached op context known => ?_, fun calls e ran each id => ?_,
    fun e reached stream each => ?_⟩
  · rw [(sound_of_reaches reached).applyRemote_same_iff, hasApplied, decide_eq_true_eq]
    have received : op.id ∈ e.received := known.elim (List.mem_append_left _)
      fun waiting => List.mem_append_right _ (List.mem_map_of_mem waiting)
    constructor
    · intro applied
      rw [← Bool.not_eq_true, waits_eq_true]
      exact fun waiting => waiting.2 applied
    · exact mem_applied_of_received received
  · have nodup := nodup_pending (sound_new replicaId) List.nodup_nil each ran
    exact rejectPending_no_copy nodup id
  · exact deliver_withoutDuplicates (sound_of_reaches reached) (Same.refl e) (fun _ member => member)
      each

/-- A character, its deletion and the undoing of the deletion, the character last. -/
def lateTarget : List Delivery :=
  [(.delete ⟨⟨2, 1⟩, ⟨1, 1⟩⟩, none), (.undelete ⟨⟨3, 1⟩, ⟨1, 1⟩⟩, none),
    (.insert ⟨⟨1, 1⟩, 97, none, .R, false⟩, none)]

/-- The same stream, with the deletion delivered again before the character arrives. -/
def lateTargetTwice : List Delivery :=
  [(.delete ⟨⟨2, 1⟩, ⟨1, 1⟩⟩, none), (.undelete ⟨⟨3, 1⟩, ⟨1, 1⟩⟩, none),
    (.delete ⟨⟨2, 1⟩, ⟨1, 1⟩⟩, none), (.insert ⟨⟨1, 1⟩, 97, none, .R, false⟩, none)]

/-- The deletion waits when it comes again. It is buffered a second time, a rejection of it leaves a
copy, and with the copy the character ends visible, without it deleted. -/
theorem redelivery_of_waiting :
    (Run.ends (Run.run deliver (new 2) (lateTargetTwice.take 2)) fun e => e.pending.length = 2) ∧
      (Run.ends (Run.run deliver (new 2) (lateTargetTwice.take 3)) fun e =>
        e.pending.length = 3 ∧ (e.rejectPending ⟨2, 1⟩).2.waits ⟨2, 1⟩) ∧
      withoutDuplicates [] lateTargetTwice = lateTarget ∧
      (Run.ends (Run.run deliver (new 2) lateTargetTwice) fun e => e.text = .ok [97]) ∧
      (Run.ends (Run.run deliver (new 2) lateTarget) fun e => e.text = .ok []) := by
  decide +kernel

/-- A stream that delivers the character twice, the second time after it was applied. -/
theorem redelivery_idempotent_applied :
    (∃ e f, Run.run deliver (new 2) (lateTarget ++ lateTarget) = .ok e ∧
      Run.run deliver (new 2) lateTarget = .ok f ∧ Same e f) ∧
    ∃ e, Run.run call (new 2) (lateTarget.map fun d => Call.applyRemote d.1 d.2) = .ok e ∧
      ∀ id, id ∉ (e.rejectPending id).2.pending.map Operation.id := by
  obtain ⟨-, rejected, streams⟩ := redelivery_idempotent 2
  refine ⟨streams (new 2) (Run.Reaches.refl _) (lateTarget ++ lateTarget) (by decide +kernel), ?_⟩
  obtain ⟨e, ran, -⟩ := Run.exists_of_ends (Run.run call (new 2)
    (lateTarget.map fun d => Call.applyRemote d.1 d.2)) (fun _ => true) (by decide +kernel)
  exact ⟨e, ran, rejected _ e ran (by decide +kernel)⟩

end ConfluenceEditor
