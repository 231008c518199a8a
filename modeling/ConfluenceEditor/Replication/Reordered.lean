/-
The same operations in another order.

A replay of a list of operations into a fresh engine shows the document of every other replay of the
same operations when the list treats disputed nodes alike (`Rearranges`): of a node whose greatest
delete and some undelete come from one replica it has the deletes and undeletes in the same order,
and none of them before the inserts of the node and of its ancestors. By the time such an operation
comes the node is there, so it is applied as it comes (`applyAll_about`); for the other nodes the
order does not matter.
-/

import ConfluenceEditor.Replication.Rebuild
import ConfluenceEditor.Replication.Tombstones

namespace ConfluenceEditor

open Engine

/-- The operation deletes or revives the node. -/
def Operation.about (target : Identifier) : Operation → Bool
  | .insert _ => false
  | .delete op => decide (op.target = target)
  | .undelete op => decide (op.target = target)

/-- The greatest delete of the node and some undelete of it come from one replica. -/
def Disputed (ops : List Operation) (target : Identifier) : Prop :=
  ∃ d u, Deletes ops target d ∧ (∀ d', Deletes ops target d' → ¬ d < d') ∧
    Undeletes ops target u ∧ u.r = d.r

/-- The inserts of the node and of all its ancestors are in the list. -/
inductive Rooted (ops : List Operation) : Identifier → Prop where
  | top {ins : InsertOperation} (offered : .insert ins ∈ ops) (top : ins.parent = none) :
      Rooted ops ins.id
  | under {ins : InsertOperation} {p : Identifier} (offered : .insert ins ∈ ops)
      (under : ins.parent = some p) (rooted : Rooted ops p) : Rooted ops ins.id

/-- `log` has the operations of `listed`, and treats the disputed nodes as `listed` does. -/
structure Rearranges (log listed : List Operation) : Prop where
  same : ∀ op, op ∈ log ↔ op ∈ listed
  ordered : ∀ target, Disputed listed target →
    log.filter (Operation.about target) = listed.filter (Operation.about target)
  rooted : ∀ target, Disputed listed target → ∀ before op after, log = before ++ op :: after →
    op.about target = true → Rooted before target

section Reordered

variable {e : Engine} {history ops : List Operation} {target : Identifier}

theorem dependency_of_about {op : Operation} (about : op.about target = true) :
    op.dependency = some target := by
  cases op with
  | insert op => cases about
  | delete op => exact congrArg some (of_decide_eq_true about)
  | undelete op => exact congrArg some (of_decide_eq_true about)

/-- Only the operations about a node decide on its attribution. -/
theorem dotOf_about (ops : List Operation) (target : Identifier) :
    dotOf (ops.filter (Operation.about target)) target = dotOf ops target := by
  refine foldl_filter (fun op member silent dot => ?_) none
  cases op with
  | insert op => rfl
  | delete op => rw [stepDot, if_neg (of_decide_eq_false silent)]
  | undelete op => rw [stepDot, if_neg (of_decide_eq_false silent)]

/-- The attributions of a history can be read off the engine. -/
theorem dotOf_eq_of_built {first second : List Operation} (built : Built e first)
    (built' : Built e second) (target : Identifier) : dotOf first target = dotOf second target := by
  by_cases present : ∃ n ∈ e.tree.nodes, n.id = target
  · obtain ⟨n, member, rfl⟩ := present
    rw [← built.deletedBy n member, built'.deletedBy n member]
  · have spared : ∀ {history : List Operation}, Built e history → ∀ d, ¬ Deletes history target d := by
      intro history built d deleted
      obtain ⟨ins, inserted, rfl⟩ := built.causal.met deleted target rfl
      obtain ⟨n, member, rfl⟩ := List.mem_map.mp ((built.inserts ins).mpr inserted)
      exact present ⟨n, member, rfl⟩
    rw [dotOf_eq_none (spared built), dotOf_eq_none (spared built')]

/-- A node whose insert was offered, with those of its ancestors, is there. -/
theorem Rooted.inserted (rooted : Rooted ops target) (built : Built e history) (settled : e.Settled)
    (offered : ∀ op ∈ ops, op ∈ e.pending ∨ op ∈ history) :
    ∃ ins : InsertOperation, .insert ins ∈ history ∧ ins.id = target := by
  induction rooted with
  | @top ins inside top =>
      refine ⟨ins, (offered _ inside).resolve_left fun waiting => ?_, rfl⟩
      have early := (settled _ waiting).2
      rw [built.ready_iff.mpr fun d named => ?_] at early
      · cases early
      · rw [show (Operation.insert ins).dependency = ins.parent from rfl, top] at named
        cases named
  | @under ins p inside under rooted ih =>
      refine ⟨ins, (offered _ inside).resolve_left fun waiting => ?_, rfl⟩
      have early := (settled _ waiting).2
      rw [built.ready_iff.mpr fun d named => ?_] at early
      · cases early
      · rw [show (Operation.insert ins).dependency = ins.parent from rfl, under] at named
        obtain rfl := Option.some.inj named
        exact ih

/-- When the node is there before the first operation about it comes, these operations are applied
in the order in which they come. -/
theorem applyAll_about (replicaId : Nat) (nodup : (ops.map Operation.id).Nodup)
    (rooted : ∀ before op after, ops = before ++ op :: after → op.about target = true →
      Rooted before target) :
    ∃ e history, (Engine.new replicaId).applyAll ops = .ok e ∧ Built e history ∧ e.Settled ∧
      (∀ op ∈ history, op ∈ ops) ∧ (∀ op ∈ e.pending, op ∈ ops) ∧
      (∀ op ∈ ops, op ∈ e.pending ∨ op ∈ history) ∧
      history.filter (Operation.about target) = ops.filter (Operation.about target) := by
  induction ops using List.reverseRecOn with
  | nil => exact ⟨_, [], rfl, built_new replicaId, settled_new replicaId, nofun, nofun, nofun, rfl⟩
  | append_singleton ops op ih =>
      have nodup' : (ops.map Operation.id).Nodup := by
        rw [List.map_append] at nodup
        exact (List.nodup_append.mp nodup).1
      obtain ⟨e, history, ran, built, settled, inside, waiting, offered, same⟩ := ih nodup'
        fun before x after split => rooted before x (after ++ [op]) (by rw [split]; simp)
      obtain ⟨buffered, e', applied, delivered, absorbed, calm, -⟩ := built.applyRemote_spec op none
      have settled' := calm settled
      -- nothing about the node waits
      have none : ∀ x ∈ e.pending, x.about target = false := fun x member => by
        rw [Bool.eq_false_iff]
        intro about
        obtain ⟨before, after, split⟩ := List.append_of_mem (waiting x member)
        have present := (rooted before x (after ++ [op]) (by rw [split]; simp) about).inserted built
          settled fun y early => offered y (by rw [split]; exact List.mem_append_left _ early)
        have early := (settled x member).2
        rw [built.ready_iff.mpr fun d named => ?_] at early
        · cases early
        · rw [dependency_of_about about] at named
          obtain rfl := Option.some.inj named
          exact present
      have from_ : ∀ x ∈ applied, x ∈ e.pending ∨ x = op := fun x member =>
        (List.mem_append.mp (absorbed.appliedFrom x member)).imp_right List.mem_singleton.mp
      have distinct : DistinctIds (ops ++ [op]) := .of_nodup nodup
      have within : ∀ x ∈ history ++ applied, x ∈ ops ++ [op] := fun x member => by
        rcases List.mem_append.mp member with old | new
        · exact List.mem_append_left _ (inside x old)
        · rcases from_ x new with held | rfl
          · exact List.mem_append_left _ (waiting x held)
          · exact List.mem_append_right _ (List.mem_singleton.mpr rfl)
      have complete : ∀ x ∈ ops ++ [op], x ∈ e'.pending ∨ x ∈ history ++ applied := by
        intro x member
        have known : x ∈ e'.pending ∨ e'.hasApplied x.id = true := by
          rcases List.mem_append.mp member with old | last
          · rcases offered x old with held | done
            · exact absorbed.complete x (List.mem_append_left _ held)
            · exact Or.inr (absorbed.built.hasApplied_iff.mpr
                ⟨x, List.mem_append_left _ done, rfl⟩)
          · exact absorbed.complete x (List.mem_append_right _ last)
        exact known.imp_right (absorbed.built.hasApplied_iff_mem distinct within member).mp
      refine ⟨e', history ++ applied, ?_, absorbed.built, settled', within, fun x member => ?_,
        complete, ?_⟩
      · rw [applyAll_append ran, applyAll_cons, delivered]
        rfl
      · rcases List.mem_append.mp (absorbed.pendingFrom.subset member) with held | last
        · exact List.mem_append_left _ (waiting x held)
        · exact List.mem_append_right _ last
      · rw [List.filter_append, List.filter_append, same]
        congr 1
        by_cases about : op.about target = true
        · -- the operation is applied at once
          have present := (rooted ops op [] rfl about).inserted absorbed.built settled'
            fun y early => complete y (List.mem_append_left _ early)
          have done : op ∈ applied := by
            have last : op ∈ ops ++ [op] := by simp
            rcases complete op last with held | done
            · have early := (settled' op held).2
              rw [absorbed.built.ready_iff.mpr fun d named => ?_] at early
              · cases early
              · rw [dependency_of_about about] at named
                obtain rfl := Option.some.inj named
                exact present
            · refine (List.mem_append.mp done).resolve_left fun old => ?_
              rw [List.map_append, List.nodup_append] at nodup
              exact nodup.2.2 op.id (List.mem_map_of_mem (inside op old)) op.id (by simp) rfl
          have only : ∀ x ∈ applied.filter (Operation.about target), x = op := fun x member => by
            obtain ⟨new, about'⟩ := List.mem_filter.mp member
            refine (from_ x new).resolve_left fun held => ?_
            rw [none x held] at about'
            cases about'
          have unique : (applied.filter (Operation.about target)).Nodup :=
            (List.nodup_append.mp absorbed.built.nodup.of_map).2.1.filter _
          rw [List.filter_singleton, about, cond_true]
          refine List.Perm.eq_singleton ((List.perm_ext_iff_of_nodup unique
            (List.nodup_singleton op)).mpr fun x => ?_)
          rw [List.mem_singleton]
          refine ⟨only x, fun here => ?_⟩
          rw [here]
          exact List.mem_filter.mpr ⟨done, about⟩
        · have nothing : applied.filter (Operation.about target) = [] := by
            rw [List.filter_eq_nil_iff]
            intro x member about'
            rcases from_ x member with held | rfl
            · rw [none x held] at about'
              cases about'
            · exact about about'
          rw [nothing, List.filter_singleton, Bool.eq_false_iff.mpr about, cond_false]

/-- A rearranged log replays to the same nodes. -/
theorem Rearranges.replay {log listed : List Operation} (rearranges : Rearranges log listed)
    (nodup : (log.map Operation.id).Nodup) (built : Built e history)
    (same : ∀ op, op ∈ listed ↔ op ∈ history)
    (dots : ∀ target, dotOf listed target = dotOf history target)
    (apart : Network.SiblingsApart history) (replicaId : Nat) :
    ∃ r, (Engine.new replicaId).applyAll log = .ok r ∧ r.pending = [] ∧ r.nodes = e.nodes := by
  obtain ⟨r, more, ran, absorbed, calm⟩ := (built_new replicaId).applyAll_spec log
  have settled := calm (settled_new replicaId)
  have inHistory : ∀ op, op ∈ log ↔ op ∈ history := fun op => (rearranges.same op).trans (same op)
  have distinct : DistinctIds history :=
    (DistinctIds.of_nodup nodup).subset fun op member => (inHistory op).mpr member
  have offered : ∀ op ∈ history, op ∈ r.pending ∨ r.hasApplied op.id = true := fun op member =>
    absorbed.complete op (List.mem_append_right _ ((inHistory op).mpr member))
  have from_ : ∀ op ∈ more, op ∈ history := fun op member => by
    refine (inHistory op).mp ?_
    simpa [Engine.new] using absorbed.appliedFrom op member
  have waiting : ∀ op ∈ r.pending, op ∈ history := fun op member => by
    refine (inHistory op).mp ?_
    simpa [Engine.new] using absorbed.pendingFrom.subset member
  have built' : Built r more := absorbed.built
  have empty := built'.pending_eq_nil settled built.causal distinct from_ waiting offered
  have all : ∀ op, op ∈ more ↔ op ∈ history := fun op =>
    ⟨from_ op, built'.mem_history_of_offered settled built.causal distinct from_ offered op⟩
  refine ⟨r, ran, empty, (nodes_eq_of_history built built' apart (fun _ => (all _).symm)
    fun target => ?_).symm⟩
  by_cases disputed : Disputed listed target
  · obtain ⟨r', direct, ran', built'', -, -, -, -, ordered⟩ :=
      applyAll_about replicaId nodup (rearranges.rooted target disputed)
    obtain rfl := Except.ok.inj (ran.symm.trans ran')
    rw [← dots, ← dotOf_about listed, ← rearranges.ordered target disputed, ← ordered, dotOf_about]
    exact dotOf_eq_of_built built'' built' target
  · refine (dotOf_eq_of_kept all fun d deleted greatest u revived own => disputed ?_).symm
    have member : ∀ op, op ∈ more ↔ op ∈ listed := fun op => (all op).trans (same op).symm
    exact ⟨d, u, (member _).mp deleted, fun d' other => greatest d' ((member _).mpr other),
      (member _).mp revived, own⟩

end Reordered

end ConfluenceEditor
