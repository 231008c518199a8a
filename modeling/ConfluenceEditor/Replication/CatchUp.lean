/-
Catch-up over a range that is already incorporated.

A client rebuilds its engine from its nodes and is then sent operations it may have applied before.
The rebuilt engine recognises the inserts, and of the deletes only those that hold an attribution;
every other delete and every undelete of the overlap is executed a second time. This is harmless
exactly when the second execution leaves every attribution where the whole log had put it
(`OperationLog.Harmless`, `OperationLog.catchUp_iff`).
-/

import ConfluenceEditor.Replication.Rebuild

namespace ConfluenceEditor

/-- A server's log: causally ordered, with distinct identifiers, and no replica inserted twice at
one position. -/
structure OperationLog where
  ops : List Operation
  causal : Causal ops
  nodup : (ops.map Operation.id).Nodup
  apart : Network.SiblingsApart ops

/-- Issued operations of a run, logged in a causal order. -/
def Network.operationLog {n : Network} (reachable : n.Reachable) (ops : List Operation)
    (issued : ∀ op ∈ ops, op ∈ n.issued) (causal : Causal ops)
    (nodup : (ops.map Operation.id).Nodup) : OperationLog where
  ops := ops
  causal := causal
  nodup := nodup
  apart a b inA inB :=
    (Network.invariant_of_reachable reachable).apart a b (issued _ inA) (issued _ inB)

namespace OperationLog

open Engine

variable (log : OperationLog) {k n m : Nat}

/-- Operations 1 to `m`. -/
def upTo (m : Nat) : List Operation := log.ops.take m

/-- Operations `k + 1` to `m`. -/
def between (k m : Nat) : List Operation := (log.upTo m).drop k

/-- Apply operations 1 to `n`, rebuild from the nodes, and receive operations `k + 1` to `m`. -/
def catchUp (replicaId k n m : Nat) : Except String Engine := do
  let e ← (Engine.new replicaId).applyAll (log.upTo n)
  let fresh ← seedEngineFromSnapshot replicaId e.nodes
  fresh.applyAll (log.between k m)

/-- The caught-up engine shows what an engine shows that applied operations 1 to `m` once. -/
def Faithful (replicaId k n m : Nat) : Prop :=
  ∃ e e', log.catchUp replicaId k n m = .ok e ∧
    (Engine.new replicaId).applyAll (log.upTo m) = .ok e' ∧ e.nodes = e'.nodes ∧ e.text = e'.text

/-- Where the log deletes a node, the overlap has neither a greater delete of it nor an undelete by
the replica that deleted it; where the log leaves a node visible, so does the overlap alone. -/
structure Harmless (k n : Nat) : Prop where
  deleted : ∀ target d, dotOf (log.upTo n) target = some d → Holds (log.between k n) target d
  visible : ∀ target, dotOf (log.upTo n) target = none → dotOf (log.between k n) target = none

/-! ### Ranges of the log -/

theorem between_split (first : k ≤ n) (second : n ≤ m) :
    log.between k m = log.between k n ++ log.between n m := by
  have whole : log.upTo m = log.upTo n ++ log.between n m := by
    rw [between, upTo, upTo]
    conv_lhs => rw [← List.take_append_drop n (log.ops.take m)]
    rw [List.take_take, Nat.min_eq_left second]
  rw [between, whole, List.drop_append, between, between]
  by_cases short : k ≤ (log.upTo n).length
  · rw [Nat.sub_eq_zero_of_le short, List.drop_zero]
  · -- the log ends before `n`, so nothing follows
    have nothing : (log.upTo m).drop n = [] := by
      rw [List.drop_eq_nil_iff]
      simp only [upTo, List.length_take] at short ⊢
      omega
    rw [nothing, List.drop_nil]

theorem upTo_eq (order : k ≤ m) : log.upTo m = log.upTo k ++ log.between k m := by
  have split := log.between_split (Nat.zero_le k) order
  rwa [between, List.drop_zero, between, List.drop_zero] at split

theorem causal_upTo (m : Nat) : Causal (log.upTo m) :=
  have split : log.upTo m ++ log.ops.drop m = log.ops := List.take_append_drop m log.ops
  (split ▸ log.causal).of_append

theorem nodup_upTo (m : Nat) : ((log.upTo m).map Operation.id).Nodup :=
  log.nodup.sublist ((List.take_sublist m log.ops).map _)

theorem distinct_upTo (m : Nat) : DistinctIds (log.upTo m) := .of_nodup (log.nodup_upTo m)

theorem apart_upTo (m : Nat) : Network.SiblingsApart (log.upTo m) := fun a b inA inB =>
  log.apart a b (List.mem_of_mem_take inA) (List.mem_of_mem_take inB)

/-! ### The two engines -/

/-- An engine that applies the log in its order is built from it. -/
theorem applyAll_upTo (replicaId m : Nat) :
    ∃ e, (Engine.new replicaId).applyAll (log.upTo m) = .ok e ∧ Built e (log.upTo m) := by
  have distinct : DistinctIds ([] ++ log.upTo m) := log.distinct_upTo m
  obtain ⟨e, applied, built, -, -⟩ := (built_new replicaId).applyAll_causal rfl distinct
    (log.nodup_upTo m).of_map (log.causal_upTo m)
  exact ⟨e, applied, by simpa using built⟩

/-- The caught-up engine is built from what the rebuild remembers and the operations it does not
recognise. -/
theorem catchUp_spec (replicaId : Nat) (first : k ≤ n) (second : n ≤ m) :
    ∃ e rebuilt, log.catchUp replicaId k n m = .ok e ∧ Rebuilt (log.upTo n) rebuilt ∧
      Built e (rebuilt ++ (log.between k m).filter fun op => decide (op ∉ rebuilt)) := by
  obtain ⟨e, applied, built⟩ := log.applyAll_upTo replicaId n
  obtain ⟨fresh, rebuilt, seeded, builtFresh, empty, -, spec⟩ := built.rebuild_spec replicaId
  have inside : ∀ op ∈ rebuilt ++ log.between k m, op ∈ log.upTo m := by
    intro op member
    rcases List.mem_append.mp member with old | new
    · rw [log.upTo_eq second]
      exact List.mem_append_left _ (spec.subset op old)
    · exact List.mem_of_mem_drop new
  have causal : Causal (rebuilt ++ log.between k m) := by
    have whole := log.causal_upTo m
    rw [log.upTo_eq (first.trans second)] at whole
    refine whole.extend builtFresh.causal fun ins member => ?_
    rw [spec.inserts, log.upTo_eq first]
    exact List.mem_append_left _ member
  obtain ⟨e', caught, built', -, -⟩ := builtFresh.applyAll_causal empty
    ((log.distinct_upTo m).subset inside)
    ((log.nodup_upTo m).of_map.sublist (List.drop_sublist ..)) causal
  exact ⟨e', rebuilt, by simp [catchUp, applied, seeded, caught, bind, Except.bind], spec, built'⟩

variable {log} {rebuilt : List Operation}

/-- The attribution of a node after the overlap was received again. -/
theorem dotOf_redelivered (spec : Rebuilt (log.upTo n) rebuilt) (target : Identifier) :
    ((log.between k n).filter fun op => decide (op ∉ rebuilt)).foldl (stepDot target)
        (dotOf (log.upTo n) target) = dotOf (log.upTo n) target ↔
      (∀ d, dotOf (log.upTo n) target = some d → Holds (log.between k n) target d) ∧
        (dotOf (log.upTo n) target = none → dotOf (log.between k n) target = none) := by
  cases dot : dotOf (log.upTo n) target with
  | none =>
      -- no delete of this node is recognised, so the whole overlap is executed
      have silent : ∀ op ∈ log.between k n, decide (op ∉ rebuilt) = false →
          ∀ dot, stepDot target dot op = dot := by
        rintro (ins | ⟨d, t⟩ | ⟨u, t⟩) member known dot'
        · rfl
        · have remembered : Deletes rebuilt t d := not_not.mp (of_decide_eq_false known)
          rw [spec.deletes] at remembered
          have other : t ≠ target := fun same => by
            rw [same, dot] at remembered
            cases remembered
          rw [stepDot, if_neg other]
        · exact absurd (not_not.mp (of_decide_eq_false known)) (spec.undeletes t u)
      rw [foldl_filter silent]
      simp [dotOf]
  | some d =>
      -- the delete that holds the attribution is the one that is recognised
      have remembered : Deletes rebuilt target d := (spec.deletes target d).mpr dot
      have absent : ¬ Deletes ((log.between k n).filter fun op => decide (op ∉ rebuilt))
          target d := fun deleted =>
        of_decide_eq_true (List.mem_filter.mp deleted).2 remembered
      rw [foldl_some_iff absent]
      constructor
      · intro holds
        refine ⟨fun d' same => ?_, fun none => by cases none⟩
        obtain rfl := Option.some.inj same
        refine ⟨fun d' deleted => ?_, fun u revived => ?_⟩
        · by_cases known : Deletes rebuilt target d'
          · rw [spec.deletes, dot] at known
            rw [Option.some.inj known]
            exact d'.lt_irrefl
          · exact holds.greatest d' (List.mem_filter.mpr ⟨deleted, decide_eq_true known⟩)
        · exact holds.kept u
            (List.mem_filter.mpr ⟨revived, decide_eq_true (spec.undeletes target u)⟩)
      · rintro ⟨holds, -⟩
        have holds := holds d rfl
        exact ⟨fun d' deleted => holds.greatest d' (List.mem_filter.mp deleted).1,
          fun u revived => holds.kept u (List.mem_filter.mp revived).1⟩

/-- The operations after `n` are all unknown to the rebuilt engine. -/
theorem filter_between (spec : Rebuilt (log.upTo n) rebuilt) (order : n ≤ m) :
    ((log.between n m).filter fun op => decide (op ∉ rebuilt)) = log.between n m := by
  refine List.filter_eq_self.mpr fun op member => decide_eq_true fun known => ?_
  have nodup := (log.nodup_upTo m).of_map
  rw [log.upTo_eq order] at nodup
  exact (List.nodup_append.mp nodup).2.2 op (spec.subset op known) op member rfl

/-- Overlaps that put every attribution back are harmless. -/
theorem harmless_iff (spec : Rebuilt (log.upTo n) rebuilt) : log.Harmless k n ↔ ∀ target,
    ((log.between k n).filter fun op => decide (op ∉ rebuilt)).foldl (stepDot target)
      (dotOf (log.upTo n) target) = dotOf (log.upTo n) target := by
  constructor
  · intro harmless target
    exact (dotOf_redelivered spec target).mpr ⟨harmless.deleted target, harmless.visible target⟩
  · intro same
    exact ⟨fun target => ((dotOf_redelivered spec target).mp (same target)).1,
      fun target => ((dotOf_redelivered spec target).mp (same target)).2⟩

/-- A harmless overlap, with anything after it. -/
theorem faithful_of_harmless (replicaId : Nat) (first : k ≤ n) (second : n ≤ m)
    (harmless : log.Harmless k n) : log.Faithful replicaId k n m := by
  obtain ⟨e, rebuilt, caught, spec, built⟩ := log.catchUp_spec replicaId first second
  obtain ⟨e', applied, built'⟩ := log.applyAll_upTo replicaId m
  have nodes : e.nodes = e'.nodes := by
    refine (nodes_eq_of_history built' built (log.apart_upTo m) (fun ins => ?_)
      fun target => ?_).symm
    · rw [List.mem_append, spec.inserts, List.mem_filter, log.upTo_eq second,
        List.mem_append, log.between_split first second, List.mem_append]
      constructor
      · rintro (old | new)
        · exact Or.inl old
        · by_cases known : Operation.insert ins ∈ rebuilt
          · exact Or.inl ((spec.inserts ins).mp known)
          · exact Or.inr ⟨Or.inr new, decide_eq_true known⟩
      · rintro (old | ⟨overlap | new, -⟩)
        · exact Or.inl old
        · exact Or.inl (List.mem_of_mem_drop overlap)
        · exact Or.inr new
    · rw [dotOf_append, spec.dotOf_eq, log.between_split first second, List.filter_append,
        List.foldl_append, (harmless_iff spec).mp harmless, filter_between spec second,
        log.upTo_eq second, dotOf_append]
  exact ⟨e, e', caught, applied, nodes, by rw [Engine.text, Engine.text, visible, visible, nodes]⟩

open Network (typed erased revived)

/-- The redo of the deletion. -/
def erasedAgain : Operation := .delete ⟨⟨4, 1⟩, ⟨1, 1⟩⟩

theorem causal_typed {later : List Operation}
    (same : ∀ op ∈ later, op.dependency = some ⟨1, 1⟩) : Causal (typed :: later) := by
  have base : Causal [typed] := Causal.nil.snoc fun d named => by cases named
  change Causal ([typed] ++ later)
  refine base.append_of_met fun op member d named => ?_
  rw [same op member] at named
  exact ⟨⟨⟨1, 1⟩, 65, none, .R, false⟩, List.mem_singleton.mpr rfl, Option.some.inj named⟩

theorem apart_typed {later : List Operation} (noInsert : ∀ ins, Operation.insert ins ∉ later) :
    Network.SiblingsApart (typed :: later) := by
  intro a b inA inB _ _ _
  have only : ∀ ins, Operation.insert ins ∈ typed :: later → Operation.insert ins = typed :=
    fun ins member => (List.mem_cons.mp member).resolve_right (noInsert ins)
  exact Operation.insert.inj ((only a inA).trans (only b inB).symm)

def erasure : OperationLog where
  ops := [typed, erased]
  causal := causal_typed (by decide)
  nodup := by decide
  apart := apart_typed (by simp [erased])

def toggled : OperationLog where
  ops := [typed, erased, revived, erasedAgain]
  causal := causal_typed (by decide)
  nodup := by decide
  apart := apart_typed (by simp [erased, revived, erasedAgain])

end OperationLog

end ConfluenceEditor
