/-
Many remote operations, offered one after another.

`applyAll` hands a list of operations to `applyRemote`. Whatever the order, every offered operation
is applied or buffered (`applyAll_spec`). When the offered operations make up a causal list, in any
order, nothing stays buffered (`pending_eq_nil`); when they come in a causal order they are applied
in that order, the known ones being skipped (`applyAll_causal`).
-/

import ConfluenceEditor.Engine.Delivery

namespace ConfluenceEditor

/-- Offer the operations in their order, each with its context. -/
def Engine.applyEach (e : Engine) : List (Operation × Option DeleteContext) → Except String Engine
  | [] => .ok e
  | (op, context) :: later => do
      let (_, e) ← e.applyRemote op context
      e.applyEach later

/-- Offer the operations in their order, without a context. -/
def Engine.applyAll (e : Engine) (ops : List Operation) : Except String Engine :=
  e.applyEach (ops.map fun op => (op, none))

@[simp] theorem Engine.applyAll_nil (e : Engine) : e.applyAll [] = .ok e := rfl

@[simp] theorem Engine.applyAll_cons (e : Engine) (op : Operation) (later : List Operation) :
    e.applyAll (op :: later) = (do
      let (_, e) ← e.applyRemote op none
      e.applyAll later) := rfl

theorem Engine.applyEach_append {e e' : Engine}
    {first : List (Operation × Option DeleteContext)} (applied : e.applyEach first = .ok e')
    (second : List (Operation × Option DeleteContext)) :
    e.applyEach (first ++ second) = e'.applyEach second := by
  induction first generalizing e with
  | nil =>
      cases applied
      rfl
  | cons item first ih =>
      cases delivered : e.applyRemote item.1 item.2 with
      | error reason => simp [applyEach, delivered, bind, Except.bind] at applied
      | ok outcome =>
          simp only [applyEach, delivered, bind, Except.bind] at applied
          simp only [List.cons_append, applyEach, delivered, bind, Except.bind]
          exact ih applied

theorem Engine.applyAll_append {e e' : Engine} {first : List Operation}
    (applied : e.applyAll first = .ok e') (second : List Operation) :
    e.applyAll (first ++ second) = e'.applyAll second := by
  rw [applyAll, List.map_append]
  exact applyEach_append applied _

/-- No two operations of the list share an identifier. -/
def DistinctIds (ops : List Operation) : Prop :=
  ∀ op ∈ ops, ∀ op' ∈ ops, op.id = op'.id → op = op'

instance (ops : List Operation) : Decidable (DistinctIds ops) :=
  inferInstanceAs (Decidable (∀ op ∈ ops, ∀ op' ∈ ops, op.id = op'.id → op = op'))

theorem DistinctIds.of_nodup {ops : List Operation} (nodup : (ops.map Operation.id).Nodup) :
    DistinctIds ops := fun _ member _ member' same =>
  List.inj_on_of_nodup_map nodup member member' same

theorem DistinctIds.subset {ops part : List Operation} (distinct : DistinctIds ops)
    (inside : ∀ op ∈ part, op ∈ ops) : DistinctIds part :=
  fun op member op' member' => distinct op (inside op member) op' (inside op' member')

namespace Built

open Engine

variable {e : Engine} {history : List Operation}

theorem applyEach_spec (built : Built e history)
    (items : List (Operation × Option DeleteContext)) :
    ∃ e' applied, e.applyEach items = .ok e' ∧
      Absorbed e e' history applied (e.pending ++ items.map Prod.fst) ∧
      (e.Settled → e'.Settled) := by
  induction items generalizing e history with
  | nil => exact ⟨e, [], rfl, .refl built, id⟩
  | cons item items ih =>
      obtain ⟨op, context⟩ := item
      obtain ⟨buffered, e₁, applied₁, delivered, absorbed₁, settled₁, -⟩ :=
        built.applyRemote_spec op context
      obtain ⟨e₂, applied₂, rest, absorbed₂, settled₂⟩ := ih absorbed₁.built
      refine ⟨e₂, applied₁ ++ applied₂, by simp [applyEach, delivered, rest, bind, Except.bind], ?_,
        fun settled => settled₂ (settled₁ settled)⟩
      rw [List.map_cons, List.append_cons]
      exact absorbed₁.trans absorbed₂

theorem applyAll_spec (built : Built e history) (ops : List Operation) :
    ∃ e' applied, e.applyAll ops = .ok e' ∧ Absorbed e e' history applied (e.pending ++ ops) ∧
      (e.Settled → e'.Settled) := by
  have spec := built.applyEach_spec (ops.map fun op => (op, none))
  rwa [List.map_map, show (Prod.fst ∘ fun op : Operation => (op, (none : Option DeleteContext))) =
    id from rfl, List.map_id] at spec

/-- In a list of distinct operations, applied means being in the history. -/
theorem hasApplied_iff_mem (built : Built e history) {ops : List Operation}
    (distinct : DistinctIds ops) (inside : ∀ op ∈ history, op ∈ ops) {op : Operation}
    (member : op ∈ ops) : e.hasApplied op.id = true ↔ op ∈ history := by
  rw [built.hasApplied_iff]
  constructor
  · rintro ⟨old, known, same⟩
    rw [← distinct old (inside old known) op member same]
    exact known
  · exact fun known => ⟨op, known, rfl⟩

/-- An engine that has been offered a whole causal list has applied it, whatever the order was. -/
theorem mem_history_of_offered (built : Built e history) (settled : e.Settled)
    {ops : List Operation} (causal : Causal ops) (distinct : DistinctIds ops)
    (inside : ∀ op ∈ history, op ∈ ops)
    (offered : ∀ op ∈ ops, op ∈ e.pending ∨ e.hasApplied op.id = true) :
    ∀ op ∈ ops, op ∈ history := by
  -- along the causal list: the dependency is applied, so the operation would have been ready
  have along : ∀ first, Causal first → (∀ op ∈ first, op ∈ ops) → ∀ op ∈ first, op ∈ history := by
    intro first causal
    induction causal with
    | nil => exact fun _ op member => by cases member
    | snoc earlier met ih =>
        rename_i first last
        intro part
        have before := ih fun op member => part op (List.mem_append_left _ member)
        intro op member
        rcases List.mem_append.mp member with old | new
        · exact before op old
        · rw [List.mem_singleton.mp new]
          have inOps : last ∈ ops := part last (by simp)
          rcases offered last inOps with waiting | known
          · have ready : e.ready last = true := built.ready_iff.mpr fun d named => by
              obtain ⟨ins, inFirst, same⟩ := met d named
              exact ⟨ins, before _ inFirst, same⟩
            rw [(settled last waiting).2] at ready
            cases ready
          · exact (built.hasApplied_iff_mem distinct inside inOps).mp known
  exact along ops causal fun _ member => member

/-- Such an engine buffers nothing. -/
theorem pending_eq_nil (built : Built e history) (settled : e.Settled) {ops : List Operation}
    (causal : Causal ops) (distinct : DistinctIds ops) (inside : ∀ op ∈ history, op ∈ ops)
    (waiting : ∀ op ∈ e.pending, op ∈ ops)
    (offered : ∀ op ∈ ops, op ∈ e.pending ∨ e.hasApplied op.id = true) : e.pending = [] := by
  refine List.eq_nil_iff_forall_not_mem.mpr fun op member => ?_
  have inOps := waiting op member
  have known := built.mem_history_of_offered settled causal distinct inside offered op inOps
  have fresh := (settled op member).1
  rw [(built.hasApplied_iff_mem distinct inside inOps).mpr known] at fresh
  cases fresh

/-- Operations offered in a causal order are applied in it; the known ones are skipped. -/
theorem applyEach_causal (built : Built e history) (empty : e.pending = [])
    {items : List (Operation × Option DeleteContext)}
    (distinct : DistinctIds (history ++ items.map Prod.fst)) (nodup : (items.map Prod.fst).Nodup)
    (causal : Causal (history ++ items.map Prod.fst)) :
    ∃ e', e.applyEach items = .ok e' ∧
      Built e' (history ++ (items.map Prod.fst).filter fun op => decide (op ∉ history)) ∧
      e'.pending = [] ∧ e'.replicaId = e.replicaId := by
  induction items using List.reverseRecOn with
  | nil => exact ⟨e, rfl, by simpa using built, empty, rfl⟩
  | append_singleton items item ih =>
      obtain ⟨op, context⟩ := item
      rw [List.map_append, List.map_singleton] at nodup distinct causal ⊢
      set ops := items.map Prod.fst
      rw [← List.append_assoc] at distinct causal
      obtain ⟨earlier, met⟩ := causal.of_snoc
      have apart := List.nodup_append.mp nodup
      obtain ⟨e₁, applied, built₁, empty₁, replicaId₁⟩ := ih
        (distinct.subset fun x member => List.mem_append_left _ member) apart.1 earlier
      rw [Engine.applyEach_append applied]
      have part : ∀ x ∈ history ++ ops.filter (fun op => decide (op ∉ history)),
          x ∈ history ++ ops ++ [op] := fun x member => by
        rcases List.mem_append.mp member with old | new
        · simp [old]
        · simp [(List.mem_filter.mp new).1]
      have last : op ∈ history ++ ops ++ [op] := by simp
      have known_iff := built₁.hasApplied_iff_mem distinct part last
      by_cases old : op ∈ history
      · have known := known_iff.mpr (List.mem_append_left _ old)
        obtain ⟨contexts, ignored⟩ := applyRemote_duplicate known context
        refine ⟨{ e₁ with deleteContext := contexts },
          by simp [Engine.applyEach, ignored, bind, Except.bind], ?_, empty₁, replicaId₁⟩
        rw [List.filter_append, List.filter_singleton, decide_eq_false (by simpa using old),
          cond_false, List.append_nil]
        exact built₁.congr rfl rfl (le_refl _)
      · have fresh : e₁.hasApplied op.id = false := by
          rw [Bool.eq_false_iff]
          intro known
          rcases List.mem_append.mp (known_iff.mp known) with inHistory | inOps
          · exact old inHistory
          · exact apart.2.2 op (List.mem_filter.mp inOps).1 op (by simp) rfl
        have ready : e₁.ready op = true := built₁.ready_iff.mpr fun d named => by
          obtain ⟨ins, member, same⟩ := met d named
          refine ⟨ins, ?_, same⟩
          by_cases inHistory : Operation.insert ins ∈ history
          · exact List.mem_append_left _ inHistory
          · have inOps := (List.mem_append.mp member).resolve_left inHistory
            exact List.mem_append_right _ (List.mem_filter.mpr ⟨inOps, by simpa using inHistory⟩)
        obtain ⟨e₂, delivered, extended⟩ := built₁.applyRemote_ready empty₁ fresh ready context
        refine ⟨e₂, by simp [Engine.applyEach, delivered, bind, Except.bind], ?_,
          extended.buffers.pending.trans empty₁, extended.buffers.replicaId.trans replicaId₁⟩
        simpa [List.filter_append, old, List.append_assoc] using extended.built

theorem applyAll_causal (built : Built e history) (empty : e.pending = []) {ops : List Operation}
    (distinct : DistinctIds (history ++ ops)) (nodup : ops.Nodup)
    (causal : Causal (history ++ ops)) :
    ∃ e', e.applyAll ops = .ok e' ∧
      Built e' (history ++ ops.filter fun op => decide (op ∉ history)) ∧ e'.pending = [] ∧
      e'.replicaId = e.replicaId := by
  have same : (ops.map fun op => (op, (none : Option DeleteContext))).map Prod.fst = ops := by
    rw [List.map_map]
    exact List.map_id ops
  rw [← same] at distinct nodup causal ⊢
  have spec := built.applyEach_causal empty distinct nodup causal
  simpa only [Engine.applyAll, same] using spec

end Built

end ConfluenceEditor
