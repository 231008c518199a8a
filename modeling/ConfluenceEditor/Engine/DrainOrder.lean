/-
The order in which the pending buffer empties.

A sweep walks the buffer from its end. So of two buffered operations that wait for the same node the
one that was buffered last is applied first, unless their dependency stands between them in the
buffer and is applied after one of them was looked at (`drainLoop_reversed`).
-/

import ConfluenceEditor.Engine.Arrival

namespace ConfluenceEditor

open SidedForest

namespace Engine

variable {e e' : Engine} {history : List Operation}

/-! ### What applying one operation changes -/

theorem doApply_applied {op : Operation} (fresh : op.id ∉ e.applied)
    (applied : e.doApply op = .ok e') : e'.applied = op.id :: e.applied := by
  obtain ⟨e₁, kind, done⟩ := Throwing.ok_of_bind applied
  obtain rfl := Except.ok.inj done
  obtain ⟨counters, noted⟩ := noteCounter_eq (e.observe op.id.c) op.id
  rw [noted] at kind
  obtain ⟨tree, contexts, rfl, -⟩ := applyKind_change (by exact fresh) kind
  rfl

theorem doApply_clock {op : Operation} (fresh : op.id ∉ e.applied)
    (applied : e.doApply op = .ok e') : e'.clock = max e.clock op.id.c := by
  obtain ⟨e₁, kind, done⟩ := Throwing.ok_of_bind applied
  obtain rfl := Except.ok.inj done
  obtain ⟨counters, noted⟩ := noteCounter_eq (e.observe op.id.c) op.id
  rw [noted] at kind
  obtain ⟨tree, contexts, rfl, -⟩ := applyKind_change (by exact fresh) kind
  rfl

theorem Change.applied_suffix {t t' : FugueTree} {applied applied' : List Identifier}
    (change : Change t applied t' applied') : applied <:+ applied' := by
  cases change with
  | idle => exact List.suffix_refl _
  | remove => exact List.suffix_refl _
  | _ => exact List.suffix_cons ..

theorem Moves.applied_suffix (moves : Moves e e') : e.applied <:+ e'.applied := by
  induction moves with
  | refl => exact List.suffix_refl _
  | tail _ move ih => exact ih.trans move.change.applied_suffix

/-- What is ready only now waited for the operation that was just applied. -/
theorem dependency_of_ready {op x : Operation} (built : Built e history)
    (built' : Built e' (history ++ [op])) (before : ¬ e.ready x = true)
    (now : e'.ready x = true) : x.dependency = some op.id := by
  rw [built.ready_iff] at before
  rw [built'.ready_iff] at now
  cases named : x.dependency with
  | none => exact absurd (fun d other => nomatch named.symm.trans other) before
  | some d =>
      obtain ⟨ins, member, rfl⟩ := now d named
      rcases List.mem_append.mp member with old | last
      · refine absurd (fun d' named' => ?_) before
        rw [named] at named'
        exact ⟨ins, old, Option.some.inj named'⟩
      · rw [← List.mem_singleton.mp last]
        rfl

/-! ### One sweep -/

/-- What a sweep that applied nothing twice says about the operations that stay. -/
structure Stays (e e' : Engine) (offered kept : List Operation) : Prop where
  fresh : ∀ x ∈ kept, x.id ∉ e'.applied
  sub : kept.Sublist offered
  complete : ∀ x ∈ offered, x ∈ kept ∨ x.id ∈ e'.applied
  origin : ∀ id ∈ e'.applied, id ∈ e.applied ∨ ∃ x ∈ offered, x.id = id
  /-- What stays although it is ready now got ready by an operation that stands before it. -/
  ready : ∀ x ∈ kept, e'.ready x = true → ∃ p, Before offered p x ∧ x.dependency = some p.id

/-- Operations that wait for the same node, without this node between them. -/
structure Together (S : Operation → Operation → Prop) (offered : List Operation) : Prop where
  same : ∀ x y, S x y → x.dependency = y.dependency
  apart : ∀ x p y, [x, p, y].Sublist offered → S x y → x.dependency ≠ some p.id
  distinct : (offered.map Operation.id).Nodup

theorem Together.of_sublist {S : Operation → Operation → Prop} {offered part : List Operation}
    (together : Together S offered) (sub : part.Sublist offered) : Together S part where
  same := together.same
  apart x p y inside := together.apart x p y (inside.trans sub)
  distinct := together.distinct.sublist (sub.map _)

/-- Only the dependency matters. -/
theorem ready_eq (e : Engine) (op : Operation) : e.ready op = e.isOriginPresent op.dependency := by
  cases op <;> rfl

/-- One sweep: what waits together is applied from the end. -/
theorem drainPass_reversed (built : Built e history) {offered kept : List Operation}
    {progressed : Bool} (swept : e.drainPass offered = .ok (e', kept, progressed))
    {S : Operation → Operation → Prop} (together : Together S offered)
    (fresh : ∀ x ∈ offered, x.id ∉ e.applied) :
    Stays e e' offered kept ∧ ∀ x y, Before offered x y → S x y → x.id ∈ e'.applied →
      Before e'.applied x.id y.id := by
  induction offered generalizing e' kept progressed with
  | nil =>
      obtain ⟨rfl, same⟩ := Prod.mk.inj (Except.ok.inj swept)
      obtain ⟨rfl, -⟩ := Prod.mk.inj same
      refine ⟨⟨?_, List.Sublist.refl _, ?_, fun id known => Or.inl known, ?_⟩, fun x y before => ?_⟩
      · rintro _ ⟨⟩
      · rintro _ ⟨⟩
      · rintro _ ⟨⟩
      · cases before.mem.1
  | cons op offered ih =>
      obtain ⟨⟨e₁, kept₁, progressed₁⟩, first, swept⟩ := Throwing.ok_of_bind swept
      obtain ⟨stays, reversed⟩ := ih first (together.of_sublist (List.sublist_cons_self ..))
        fun x member => fresh x (List.mem_cons_of_mem _ member)
      obtain ⟨other, -⟩ := List.nodup_cons.mp (List.map_cons ▸ together.distinct)
      have unknown : op.id ∉ e₁.applied := by
        intro known
        rcases stays.origin op.id known with old | ⟨x, member, same⟩
        · exact fresh op List.mem_cons_self old
        · exact other (same ▸ List.mem_map_of_mem member)
      have earlier : ∀ x, (∃ p, Before offered p x ∧ x.dependency = some p.id) →
          ∃ p, Before (op :: offered) p x ∧ x.dependency = some p.id := by
        rintro x ⟨p, before, named⟩
        exact ⟨p, before.mono (List.sublist_cons_self ..), named⟩
      have behind : ∀ {id}, (∃ x ∈ offered, x.id = id) → ∃ x ∈ op :: offered, x.id = id := by
        rintro id ⟨x, there, same⟩
        exact ⟨x, List.mem_cons_of_mem _ there, same⟩
      simp only at swept
      rw [if_neg (by simpa [hasApplied] using unknown)] at swept
      split_ifs at swept with ready
      · -- the operation is applied after everything that follows it
        obtain ⟨e₂, applied, done⟩ := Throwing.ok_of_bind swept
        obtain ⟨rfl, same⟩ := Prod.mk.inj (Except.ok.inj done)
        obtain ⟨rfl, -⟩ := Prod.mk.inj same
        have known := doApply_applied unknown applied
        obtain ⟨e₁', kept', progressed', later, first', spec⟩ := built.drainPass_spec offered
        obtain ⟨rfl, -⟩ := Prod.mk.inj (Except.ok.inj (first'.symm.trans first))
        obtain ⟨e₂', applied', extended⟩ := spec.built.doApply_spec
          (by simpa [hasApplied] using unknown) ready
        obtain rfl := Except.ok.inj (applied'.symm.trans applied)
        have apart : ∀ x ∈ offered, x.id ≠ op.id := fun x member same =>
          other (same ▸ List.mem_map_of_mem member)
        refine ⟨⟨fun x member => ?_, stays.sub.cons _, fun x member => ?_, fun id member => ?_,
          fun x member now => ?_⟩, fun x y before related member => ?_⟩
        · rw [known]
          refine List.not_mem_cons_of_ne_of_not_mem (apart x (stays.sub.subset member)) ?_
          exact stays.fresh x member
        · rw [known]
          rcases List.mem_cons.mp member with rfl | inside
          · exact Or.inr List.mem_cons_self
          · exact (stays.complete x inside).imp_right (List.mem_cons_of_mem _)
        · rw [known] at member
          rcases List.mem_cons.mp member with rfl | inside
          · exact Or.inr ⟨op, List.mem_cons_self, rfl⟩
          · exact (stays.origin id inside).imp_right behind
        · by_cases before : e₁'.ready x = true
          · exact earlier x (stays.ready x member before)
          · refine ⟨op, before_cons_iff.mpr (Or.inl ⟨rfl, stays.sub.subset member⟩), ?_⟩
            exact dependency_of_ready spec.built extended.built before now
        · rw [known] at member ⊢
          rcases before_cons_iff.mp before with ⟨rfl, inside⟩ | rest
          · refine before_cons_iff.mpr (Or.inl ⟨rfl, (stays.complete y inside).resolve_left ?_⟩)
            intro waits
            rw [ready_eq, together.same x y related, ← ready_eq] at ready
            obtain ⟨p, place, named⟩ := stays.ready y waits ready
            refine together.apart x p y (place.cons_cons x) related ?_
            rw [together.same x y related, named]
          · have inside : x.id ∈ e₁'.applied := (List.mem_cons.mp member).resolve_left
              (apart x rest.mem.1)
            exact (reversed x y rest related inside).mono (List.sublist_cons_self ..)
      · -- the operation stays
        obtain ⟨rfl, same⟩ := Prod.mk.inj (Except.ok.inj swept)
        obtain ⟨rfl, -⟩ := Prod.mk.inj same
        refine ⟨⟨fun x member => ?_, stays.sub.cons_cons _, fun x member => ?_, fun id member =>
          (stays.origin id member).imp_right behind, fun x member now => ?_⟩,
          fun x y before related member => ?_⟩
        · rcases List.mem_cons.mp member with rfl | inside
          · exact unknown
          · exact stays.fresh x inside
        · rcases List.mem_cons.mp member with rfl | inside
          · exact Or.inl List.mem_cons_self
          · exact (stays.complete x inside).imp_left (List.mem_cons_of_mem _)
        · rcases List.mem_cons.mp member with rfl | inside
          · exact absurd now ready
          · exact earlier x (stays.ready x inside now)
        · rcases before_cons_iff.mp before with ⟨rfl, -⟩ | rest
          · exact absurd member unknown
          · exact reversed x y rest related member

/-! ### The whole loop -/

/-- What waits together is applied from the end of the buffer. -/
theorem drainLoop_reversed {S : Operation → Operation → Prop} (sweeps : Nat) {e : Engine}
    {history : List Operation} (built : Built e history) (together : Together S e.pending)
    (fresh : ∀ x ∈ e.pending, x.id ∉ e.applied) (drained : drainLoop sweeps e = .ok e') :
    ∀ x y, Before e.pending x y → S x y → x.id ∈ e'.applied → Before e'.applied x.id y.id := by
  induction sweeps generalizing e history with
  | zero =>
      obtain rfl := Except.ok.inj drained
      exact fun x y before _ member => absurd member (fresh x before.mem.1)
  | succ sweeps ih =>
      obtain ⟨⟨e₁, kept, progressed⟩, swept, drained⟩ := Throwing.ok_of_bind drained
      obtain ⟨stays, reversed⟩ := drainPass_reversed built swept together fresh
      obtain ⟨e₁', kept', progressed', applied, swept', spec⟩ := built.drainPass_spec e.pending
      obtain ⟨rfl, rest⟩ := Prod.mk.inj (Except.ok.inj (swept'.symm.trans swept))
      simp only at drained
      split_ifs at drained
      · intro x y before related member
        have grown := (drainLoop_moves sweeps drained).applied_suffix
        by_cases early : x.id ∈ e₁'.applied
        · exact (reversed x y before related early).mono grown.sublist
        · have waits := (stays.complete x before.mem.1).resolve_right early
          rcases stays.complete y before.mem.2 with waits' | done
          · refine ih (e := { e₁' with pending := kept }) (spec.built.congr rfl rfl (le_refl _))
              (together.of_sublist stays.sub) stays.fresh drained x y ?_ related member
            exact before.restrict together.distinct.of_map stays.sub waits waits'
          · exact before_of_suffix grown done member early
      · obtain rfl := Except.ok.inj drained
        exact fun x y before related member => reversed x y before related member

theorem applyRemote_reversed {S : Operation → Operation → Prop} (built : Built e history)
    {op : Operation} (fresh : e.hasApplied op.id = false) (ready : e.ready op = true)
    (together : Together S e.pending)
    (waiting : ∀ x ∈ e.pending, x.id ∉ e.applied ∧ x.id ≠ op.id) {buffered : Bool}
    (applied : e.applyRemote op none = .ok (buffered, e')) :
    ∀ x y, Before e.pending x y → S x y → x.id ∈ e'.applied → Before e'.applied x.id y.id := by
  have unknown : op.id ∉ e.applied := by simpa [hasApplied] using fresh
  rw [applyRemote, Built.recordContext_none] at applied
  simp only [fresh, ready] at applied
  obtain ⟨e₁, done, applied⟩ := Throwing.ok_of_bind applied
  obtain ⟨e₂, drained, applied⟩ := Throwing.ok_of_bind applied
  obtain ⟨-, rfl⟩ := Prod.mk.inj (Except.ok.inj applied)
  obtain ⟨e₁', done', extended⟩ := built.doApply_spec fresh ready
  obtain rfl := Except.ok.inj (done'.symm.trans done)
  have pending : e₁'.pending = e.pending := extended.buffers.pending
  have known := doApply_applied unknown done
  rw [← pending] at together waiting ⊢
  refine drainLoop_reversed _ extended.built together (fun x member => ?_) drained
  rw [known]
  exact List.not_mem_cons_of_ne_of_not_mem (waiting x member).2 (waiting x member).1

end Engine

end ConfluenceEditor
