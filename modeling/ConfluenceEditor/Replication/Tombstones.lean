/-
Tombstones under every order of delivery.

Deletes and undeletes of one node do not commute, so two replicas that received the same operations
in different orders need not agree on its tombstone (`tombstones_diverge`). They do agree exactly
when the received operations are `Undisputed`: for every node, the replica of its greatest delete
has issued no undelete of it (`tombstones_converge_iff`). One direction is `dotOf_eq_of_unchallenged`;
for the other, two fresh replicas receive the inserts first and then the deletes before, or after,
the undeletes (`deliver_all`).
-/

import ConfluenceEditor.Replication.Convergence

namespace ConfluenceEditor

/-- For every node, the replica of its greatest delete issued no undelete of it. -/
def Undisputed (ops : List Operation) : Prop :=
  ∀ target d, Deletes ops target d → (∀ d', Deletes ops target d' → ¬ d < d') →
    ∀ u, Undeletes ops target u → u.r ≠ d.r

/-- Every operation of the list has its dependency in the list. -/
def Closed (ops : List Operation) : Prop := ∀ op ∈ ops, DependencyMet ops op

/-- Two engines show the same tombstones and the same text. -/
structure Agree (e e' : Engine) : Prop where
  flags : ∀ m ∈ e.nodes, ∀ m' ∈ e'.nodes, m.id = m'.id →
    m.deleted = m'.deleted ∧ m.deletedBy = m'.deletedBy
  text : e.text = e'.text

/-! ### Undisputed operations -/

theorem exists_greatest (ids : List Identifier) (nonempty : ids ≠ []) :
    ∃ d ∈ ids, ∀ d' ∈ ids, ¬ d < d' := by
  induction ids with
  | nil => exact absurd rfl nonempty
  | cons a ids ih =>
      by_cases last : ids = []
      · subst last
        refine ⟨a, by simp, fun d' member => ?_⟩
        rw [List.mem_singleton.mp member]
        exact a.lt_irrefl
      · obtain ⟨d, member, greatest⟩ := ih last
        by_cases less : d < a
        · refine ⟨a, by simp, fun d' inside => ?_⟩
          rcases List.mem_cons.mp inside with rfl | later
          · exact d'.lt_irrefl
          · exact fun above => greatest d' later (Identifier.lt_trans less above)
        · refine ⟨d, by simp [member], fun d' inside => ?_⟩
          rcases List.mem_cons.mp inside with rfl | later
          · exact less
          · exact greatest d' later

/-- The identifier of a deletion of the target. -/
def deleteOf (target : Identifier) : Operation → Option Identifier
  | .delete op => if op.target = target then some op.id else none
  | _ => none

theorem exists_greatest_delete {ops : List Operation} {target d : Identifier}
    (deleted : Deletes ops target d) :
    ∃ d, Deletes ops target d ∧ ∀ d', Deletes ops target d' → ¬ d < d' := by
  let deletes := ops.filterMap (deleteOf target)
  have mem_deletes : ∀ d', d' ∈ deletes ↔ Deletes ops target d' := by
    intro d'
    simp only [deletes, List.mem_filterMap, Deletes]
    constructor
    · rintro ⟨op, member, found⟩
      cases op with
      | insert op => cases found
      | undelete op => cases found
      | delete op =>
          rw [deleteOf] at found
          split_ifs at found with here
          obtain rfl := Option.some.inj found
          obtain ⟨id, t⟩ := op
          obtain rfl : t = target := here
          exact member
    · exact fun member => ⟨_, member, if_pos rfl⟩
  obtain ⟨top, member, greatest⟩ := exists_greatest deletes
    (List.ne_nil_of_mem ((mem_deletes d).mpr deleted))
  exact ⟨top, (mem_deletes top).mp member, fun d' del => greatest d' ((mem_deletes d').mpr del)⟩

/-- When the replica of a node's greatest delete never undeletes it, the order does not matter. -/
theorem dotOf_eq_of_kept {first second : List Operation} {target : Identifier}
    (same : ∀ op, op ∈ first ↔ op ∈ second)
    (kept : ∀ d, Deletes first target d → (∀ d', Deletes first target d' → ¬ d < d') →
      ∀ u, Undeletes first target u → u.r ≠ d.r) : dotOf first target = dotOf second target := by
  by_cases spared : ∃ d, Deletes first target d
  · obtain ⟨d, deleted⟩ := spared
    obtain ⟨top, member, greatest⟩ := exists_greatest_delete deleted
    have holds := kept top member greatest
    rw [dotOf_eq_of_unchallenged ⟨⟨greatest, holds⟩, member⟩,
      dotOf_eq_of_unchallenged ⟨⟨fun d' del => greatest d' ((same _).mpr del),
        fun u und => holds u ((same _).mpr und)⟩, (same _).mp member⟩]
  · have none : ∀ d, ¬ Deletes first target d := fun d deleted => spared ⟨d, deleted⟩
    rw [dotOf_eq_none none, dotOf_eq_none fun d deleted => none d ((same _).mpr deleted)]

/-- Undisputed operations give the same attribution in every order. -/
theorem dotOf_eq_of_mem_iff {first second : List Operation} {target : Identifier}
    (same : ∀ op, op ∈ first ↔ op ∈ second) (undisputed : Undisputed first) :
    dotOf first target = dotOf second target :=
  dotOf_eq_of_kept same (undisputed target)

/-- Engines with the same skeleton and the same attributions agree. -/
theorem agree_of_dots {e e' : Engine} {first second : List Operation} (built : Built e first)
    (built' : Built e' second)
    (skeleton : e.nodes.map Node.toInsert = e'.nodes.map Node.toInsert)
    (dots : ∀ target, dotOf first target = dotOf second target) : Agree e e' := by
  have flags : ∀ m ∈ e.nodes, ∀ m' ∈ e'.nodes, m.id = m'.id →
      m.deleted = m'.deleted ∧ m.deletedBy = m'.deletedBy := by
    intro m inE m' inE' same
    rw [built.nodes_eq] at inE
    rw [built'.nodes_eq] at inE'
    have dot : m.deletedBy = m'.deletedBy := by
      rw [built.deletedBy m inE, built'.deletedBy m' inE', same, dots]
    exact ⟨by rw [built.deleted m inE, built'.deleted m' inE', dot], dot⟩
  refine ⟨flags, ?_⟩
  rw [Engine.text, Engine.text, Engine.visible, Engine.visible,
    nodes_eq_of_skeleton_eq skeleton flags]

namespace Network

variable {n : Network}

/-! ### Handing a list of operations to an unused replica -/

/-- A causal list of issued operations, handed over in its order, is applied in its order. -/
theorem deliver_all (i : Nat) (history later : List Operation) {n : Network}
    (built : Built (n.replicas i) history) (empty : (n.replicas i).pending = [])
    (issued : ∀ op ∈ later, op ∈ n.issued) (causal : Causal (history ++ later))
    (nodup : ((history ++ later).map Operation.id).Nodup) :
    ∃ n', Run.Reaches step n n' ∧ Built (n'.replicas i) (history ++ later) ∧
      (n'.replicas i).pending = [] ∧ n'.received i = n.received i ++ later ∧
      n'.issued = n.issued ∧
      ∀ j, j ≠ i → n'.replicas j = n.replicas j ∧ n'.received j = n.received j := by
  induction later generalizing n history with
  | nil =>
      exact ⟨n, .refl n, by rwa [List.append_nil], empty, by simp, rfl, fun _ _ => ⟨rfl, rfl⟩⟩
  | cons op later ih =>
      rw [List.append_cons] at causal nodup
      have fresh : (n.replicas i).hasApplied op.id = false := by
        rw [Bool.eq_false_iff]
        intro known
        obtain ⟨old, member, same⟩ := built.hasApplied_iff.mp known
        rw [List.map_append, List.map_append, List.nodup_append] at nodup
        have apart := (List.nodup_append.mp nodup.1).2.2
        exact apart _ (List.mem_map_of_mem member) op.id (by simp) same
      have ready : (n.replicas i).ready op = true :=
        built.ready_iff.mpr causal.of_append.of_snoc.2
      obtain ⟨e, delivered, extended⟩ := built.applyRemote_ready empty fresh ready none
      have moved : n.step (.deliver i op) = .ok (n.receive i e op) := by
        simp [step, issued op (by simp), delivered, bind, Except.bind]
      obtain ⟨n', reaches, built', empty', received, sameIssued, others⟩ :=
        ih (history ++ [op]) (n := n.receive i e op) (by simpa [receive] using extended.built)
          (by simpa [receive] using extended.buffers.pending.trans empty)
          (fun x member => issued x (List.mem_cons_of_mem _ member)) causal nodup
      refine ⟨n', (Run.Reaches.single moved).trans reaches, by rwa [List.append_cons], empty', ?_,
        sameIssued, fun j ne => ?_⟩
      · rw [received]
        simp [receive]
      · obtain ⟨sameReplica, sameReceived⟩ := others j ne
        exact ⟨by rw [sameReplica]; simp [receive, ne], by rw [sameReceived]; simp [receive, ne]⟩

/-- Only finitely many replicas have received anything. -/
theorem eventually_unused (reachable : n.Reachable) :
    ∃ bound, ∀ i, bound ≤ i → n.received i = [] := by
  refine reachable.invariant (P := fun n => ∃ bound, ∀ i, bound ≤ i → n.received i = [])
    ⟨0, fun _ _ => rfl⟩ ?_
  rintro n command n' ⟨bound, unused⟩ moved
  obtain ⟨i, others⟩ := step_others moved
  refine ⟨max bound (i + 1), fun j large => ?_⟩
  rw [others j (by omega), unused j (by omega)]

/-- A replica that received nothing is empty. -/
theorem ReplicaInvariant.unused {i : Nat} {history : List Operation}
    (replica : n.ReplicaInvariant i history) (unused : n.received i = []) :
    Built (n.replicas i) [] ∧ (n.replicas i).pending = [] := by
  have nothing : ∀ op, ¬ (op ∈ history ∨ op ∈ (n.replicas i).pending) := fun op member => by
    have known := (replica.known op).mpr member
    rw [unused] at known
    cases known
  obtain rfl := List.eq_nil_iff_forall_not_mem.mpr fun op member => nothing op (Or.inl member)
  exact ⟨replica.built, List.eq_nil_iff_forall_not_mem.mpr fun op member =>
    nothing op (Or.inr member)⟩

/-! ### Three orders of one set -/

/-- The inserts, deletes and undeletes of a set among the issued operations, each in the order of
issue. -/
def kinds (issued ops : List Operation) : List Operation × List Operation × List Operation :=
  (issued.filter fun op => decide (op ∈ ops) && match op with | .insert _ => true | _ => false,
    issued.filter fun op => decide (op ∈ ops) && match op with | .delete _ => true | _ => false,
    issued.filter fun op => decide (op ∈ ops) && match op with | .undelete _ => true | _ => false)

section Kinds

variable {issued ops : List Operation}

theorem mem_inserts (inside : ∀ op ∈ ops, op ∈ issued) (op : Operation) :
    op ∈ (kinds issued ops).1 ↔ op ∈ ops ∧ ∃ ins, op = .insert ins := by
  have known := inside op
  cases op <;> simp [kinds]
  tauto

theorem mem_deletes (inside : ∀ op ∈ ops, op ∈ issued) (op : Operation) :
    op ∈ (kinds issued ops).2.1 ↔ op ∈ ops ∧ ∃ del, op = .delete del := by
  have known := inside op
  cases op <;> simp [kinds]
  tauto

theorem mem_undeletes (inside : ∀ op ∈ ops, op ∈ issued) (op : Operation) :
    op ∈ (kinds issued ops).2.2 ↔ op ∈ ops ∧ ∃ und, op = .undelete und := by
  have known := inside op
  cases op <;> simp [kinds]
  tauto

/-- The inserts of a closed set are causal, and everything else may follow in any order. -/
theorem causal_kinds (causal : Causal issued) (unique : (issued.map Operation.id).Nodup)
    (inside : ∀ op ∈ ops, op ∈ issued) (closed : Closed ops) (later : List Operation)
    (rest : ∀ op ∈ later, op ∈ ops ∧ ∀ ins, op ≠ .insert ins) :
    Causal ((kinds issued ops).1 ++ later) := by
  have inserted : ∀ op ∈ ops, DependencyMet (kinds issued ops).1 op := by
    intro op member d named
    obtain ⟨ins, inOps, same⟩ := closed op member d named
    exact ⟨ins, (mem_inserts inside _).mpr ⟨inOps, ins, rfl⟩, same⟩
  have base : Causal (kinds issued ops).1 := by
    refine causal.filter _ fun op member kept ins inIssued named => ?_
    rw [Bool.and_eq_true, decide_eq_true_iff] at kept
    obtain ⟨ins', inOps, same⟩ := closed op kept.1 ins.id named
    have equal : Operation.insert ins' = .insert ins :=
      eq_of_id_eq unique (inside _ inOps) inIssued same
    rw [← equal, Bool.and_eq_true, decide_eq_true_iff]
    exact ⟨inOps, rfl⟩
  induction later using List.reverseRecOn with
  | nil => rwa [List.append_nil]
  | append_singleton later op ih =>
      rw [← List.append_assoc]
      refine (ih fun x member => rest x (List.mem_append_left _ member)).snoc ?_
      exact (inserted op (rest op (by simp)).1).append _

theorem nodup_kinds (ops : List Operation) (unique : (issued.map Operation.id).Nodup) :
    (((kinds issued ops).1 ++ ((kinds issued ops).2.1 ++ (kinds issued ops).2.2)).map
      Operation.id).Nodup := by
  have apart : ∀ p q : Operation → Bool, (∀ op, ¬ (p op = true ∧ q op = true)) →
      ∀ x ∈ (issued.filter p).map Operation.id, ∀ y ∈ (issued.filter q).map Operation.id,
        x ≠ y := by
    rintro p q never x inP y inQ rfl
    obtain ⟨a, ha, rfl⟩ := List.mem_map.mp inP
    obtain ⟨b, hb, same⟩ := List.mem_map.mp inQ
    obtain ⟨issuedA, keptA⟩ := List.mem_filter.mp ha
    obtain ⟨issuedB, keptB⟩ := List.mem_filter.mp hb
    obtain rfl := List.inj_on_of_nodup_map unique issuedB issuedA same
    exact never b ⟨keptA, keptB⟩
  have part : ∀ p : Operation → Bool, ((issued.filter p).map Operation.id).Nodup := fun p =>
    unique.sublist (List.filter_sublist.map _)
  rw [List.map_append, List.map_append, List.nodup_append, List.nodup_append]
  refine ⟨part _, ⟨part _, part _, apart _ _ fun op => ?_⟩, fun x inX y inY => ?_⟩
  · cases op <;> simp
  · rcases List.mem_append.mp inY with inDel | inUnd
    · exact apart _ _ (fun op => by cases op <;> simp) x inX y inDel
    · exact apart _ _ (fun op => by cases op <;> simp) x inX y inUnd

/-- With the undeletes last, the greatest delete is cleared. -/
theorem dotOf_undeletes_last (inside : ∀ op ∈ ops, op ∈ issued) {target d u : Identifier}
    (deleted : Deletes ops target d) (greatest : ∀ d', Deletes ops target d' → ¬ d < d')
    (revived : Undeletes ops target u) (own : u.r = d.r) :
    dotOf ((kinds issued ops).1 ++ ((kinds issued ops).2.1 ++ (kinds issued ops).2.2)) target =
      none := by
  have top : Unchallenged ((kinds issued ops).1 ++ (kinds issued ops).2.1) target d := by
    refine ⟨⟨fun d' del => greatest d' ?_, fun u' und => ?_⟩,
      List.mem_append_right _ ((mem_deletes inside _).mpr ⟨deleted, _, rfl⟩)⟩
    · rcases List.mem_append.mp del with ins | del
      · exact ((mem_inserts inside _).mp ins).1
      · exact ((mem_deletes inside _).mp del).1
    · rcases List.mem_append.mp und with ins | del
      · obtain ⟨-, ins, same⟩ := (mem_inserts inside _).mp ins
        cases same
      · obtain ⟨-, del, same⟩ := (mem_deletes inside _).mp del
        cases same
  rw [← List.append_assoc, dotOf_append, dotOf_eq_of_unchallenged top]
  refine foldl_undeletes (fun d' del => ?_) ((mem_undeletes inside _).mpr ⟨revived, _, rfl⟩) own
  obtain ⟨-, und, same⟩ := (mem_undeletes inside _).mp del
  cases same

/-- With the deletes last, the greatest delete stands. -/
theorem dotOf_deletes_last (inside : ∀ op ∈ ops, op ∈ issued) {target d : Identifier}
    (deleted : Deletes ops target d) (greatest : ∀ d', Deletes ops target d' → ¬ d < d') :
    dotOf ((kinds issued ops).1 ++ ((kinds issued ops).2.2 ++ (kinds issued ops).2.1)) target =
      some d := by
  have spared : dotOf ((kinds issued ops).1 ++ (kinds issued ops).2.2) target = none := by
    refine dotOf_eq_none fun d' del => ?_
    rcases List.mem_append.mp del with ins | und
    · obtain ⟨-, ins, same⟩ := (mem_inserts inside _).mp ins
      cases same
    · obtain ⟨-, und, same⟩ := (mem_undeletes inside _).mp und
      cases same
  have top : Unchallenged (kinds issued ops).2.1 target d := by
    refine ⟨⟨fun d' del => greatest d' ((mem_deletes inside _).mp del).1, fun u' und => ?_⟩,
      (mem_deletes inside _).mpr ⟨deleted, _, rfl⟩⟩
    obtain ⟨-, del, same⟩ := (mem_deletes inside _).mp und
    cases same
  rw [← List.append_assoc, dotOf_append, spared]
  exact dotOf_eq_of_unchallenged top

end Kinds

/-! ### When tombstones converge -/

/-- The operations that a replica without a buffer received are closed. -/
theorem ReplicaInvariant.closed {i : Nat} {history ops : List Operation}
    (replica : n.ReplicaInvariant i history) (empty : (n.replicas i).pending = [])
    (received : ∀ op, op ∈ n.received i ↔ op ∈ ops) : Closed ops := by
  have same : ∀ op, op ∈ history ↔ op ∈ ops := fun op =>
    (replica.mem_history empty op).trans (received op)
  intro op member d named
  obtain ⟨ins, inHistory, id⟩ := replica.built.causal.met ((same op).mpr member) d named
  exact ⟨ins, (same _).mp inHistory, id⟩

/-- Replicas that received the same undisputed operations agree. -/
theorem agree_of_undisputed (invariant : n.Invariant) {i j : Nat} {ops : List Operation}
    (receivedI : ∀ op, op ∈ n.received i ↔ op ∈ ops)
    (receivedJ : ∀ op, op ∈ n.received j ↔ op ∈ ops) (emptyI : (n.replicas i).pending = [])
    (emptyJ : (n.replicas j).pending = []) (undisputed : Closed ops → Undisputed ops) :
    Agree (n.replicas i) (n.replicas j) := by
  obtain ⟨first, replica⟩ := invariant.replica i
  obtain ⟨second, replica'⟩ := invariant.replica j
  have inFirst : ∀ op, op ∈ first ↔ op ∈ ops := fun op =>
    (replica.mem_history emptyI op).trans (receivedI op)
  have inSecond : ∀ op, op ∈ second ↔ op ∈ ops := fun op =>
    (replica'.mem_history emptyJ op).trans (receivedJ op)
  have settled := undisputed (replica.closed emptyI receivedI)
  refine agree_of_dots replica.built replica'.built
    (skeleton_converges invariant replica replica' fun op => by rw [inFirst, inSecond])
    fun target => ?_
  exact (dotOf_eq_of_mem_iff (fun op => (inFirst op).symm) settled).symm.trans
    (dotOf_eq_of_mem_iff (fun op => (inSecond op).symm) settled)

/-- For a set of issued operations, all replicas that receive exactly this set, in any order, with
any duplicates and through any buffering, agree once nothing is buffered, if and only if no replica
undeletes a node of which it holds the greatest delete. -/
theorem tombstones_converge_iff (reachable : n.Reachable) (ops : List Operation)
    (issued : ∀ op ∈ ops, op ∈ n.issued) :
    (∀ n', Run.Reaches step n n' → ∀ i j, (∀ op, op ∈ n'.received i ↔ op ∈ ops) →
      (∀ op, op ∈ n'.received j ↔ op ∈ ops) → (n'.replicas i).pending = [] →
      (n'.replicas j).pending = [] → Agree (n'.replicas i) (n'.replicas j)) ↔
    (Closed ops → Undisputed ops) := by
  constructor
  · intro agree closed target d deleted greatest u revived own
    have invariant := invariant_of_reachable reachable
    obtain ⟨bound, unused⟩ := eventually_unused reachable
    obtain ⟨_, replicaA⟩ := invariant.replica bound
    obtain ⟨_, replicaB⟩ := invariant.replica (bound + 1)
    obtain ⟨builtA, emptyA⟩ := replicaA.unused (unused bound (le_refl _))
    obtain ⟨builtB, emptyB⟩ := replicaB.unused (unused (bound + 1) (Nat.le_succ _))
    set ins := (kinds n.issued ops).1 with hins
    set del := (kinds n.issued ops).2.1 with hdel
    set und := (kinds n.issued ops).2.2 with hund
    have later : ∀ op ∈ del ++ und, op ∈ ops ∧ ∀ a, op ≠ .insert a := by
      intro op member
      rcases List.mem_append.mp member with inDel | inUnd
      · obtain ⟨inOps, del, rfl⟩ := (mem_deletes issued op).mp inDel
        exact ⟨inOps, fun a => by simp⟩
      · obtain ⟨inOps, und, rfl⟩ := (mem_undeletes issued op).mp inUnd
        exact ⟨inOps, fun a => by simp⟩
    have whole : ∀ op, op ∈ ins ++ (del ++ und) ↔ op ∈ ops := by
      intro op
      rw [List.mem_append, List.mem_append, mem_inserts issued, mem_deletes issued,
        mem_undeletes issued]
      cases op <;> simp
    have swapped : ∀ op, op ∈ ins ++ (und ++ del) ↔ op ∈ ops := fun op => by
      rw [← whole op]
      simp only [List.mem_append]
      tauto
    have nodup := nodup_kinds ops invariant.unique
    have nodup' : ((ins ++ (und ++ del)).map Operation.id).Nodup :=
      ((List.perm_append_comm.append_left ins).map Operation.id).nodup_iff.mp nodup
    have causal := causal_kinds invariant.causal invariant.unique issued closed _ later
    have causal' := causal_kinds invariant.causal invariant.unique issued closed
      (und ++ del) fun op member => later op (by
        simp only [List.mem_append] at member ⊢
        exact member.symm)
    obtain ⟨n₁, reaches₁, built₁, empty₁, received₁, issued₁, others₁⟩ :=
      deliver_all bound [] (ins ++ (del ++ und)) builtA emptyA (fun op member =>
        issued op ((whole op).mp member)) causal nodup
    obtain ⟨sameB, sameReceivedB⟩ := others₁ (bound + 1) (by omega)
    obtain ⟨n₂, reaches₂, built₂, empty₂, received₂, -, others₂⟩ :=
      deliver_all (bound + 1) [] (ins ++ (und ++ del)) (n := n₁)
        (by rw [sameB]; exact builtB) (by rw [sameB]; exact emptyB)
        (fun op member => by rw [issued₁]; exact issued op ((swapped op).mp member))
        causal' nodup'
    obtain ⟨sameA, sameReceivedA⟩ := others₂ bound (by omega)
    rw [← sameA] at built₁ empty₁
    have receivedA : ∀ op, op ∈ n₂.received bound ↔ op ∈ ops := fun op => by
      rw [sameReceivedA, received₁, unused bound (le_refl _)]
      exact whole op
    have receivedB : ∀ op, op ∈ n₂.received (bound + 1) ↔ op ∈ ops := fun op => by
      rw [received₂, sameReceivedB, unused (bound + 1) (Nat.le_succ _)]
      exact swapped op
    have flags := (agree n₂ (reaches₁.trans reaches₂) bound (bound + 1) receivedA receivedB
      empty₁ empty₂).flags
    -- the node itself is present on both sides, and its attribution differs
    obtain ⟨a, inOps, named⟩ := closed _ deleted target rfl
    obtain ⟨m, inA, rfl⟩ := List.mem_map.mp ((built₁.inserts a).mpr ((whole _).mpr inOps))
    obtain ⟨m', inB, same⟩ := List.mem_map.mp
      ((built₂.inserts m.toInsert).mpr ((swapped _).mpr inOps))
    have sameId : m'.id = m.id := congrArg InsertOperation.id same
    obtain rfl : m.id = target := named
    have dots := (flags m (by rwa [built₁.nodes_eq]) m' (by rwa [built₂.nodes_eq])
      sameId.symm).2
    rw [built₁.deletedBy m inA, built₂.deletedBy m' inB, sameId] at dots
    have cleared := dotOf_undeletes_last issued deleted greatest revived own
    have stands := dotOf_deletes_last issued deleted greatest
    rw [List.nil_append, cleared, List.nil_append, stands] at dots
    cases dots
  · intro undisputed n' reaches i j receivedI receivedJ emptyI emptyJ
    have reachable' : n'.Reachable := Run.Reaches.trans reachable reaches
    exact agree_of_undisputed (invariant_of_reachable reachable') receivedI receivedJ emptyI
      emptyJ undisputed

/-- One character, its deletion and the undo of the deletion, all by replica 1. -/
def typed : Operation := .insert ⟨⟨1, 1⟩, 65, none, .R, false⟩

def erased : Operation := .delete ⟨⟨2, 1⟩, ⟨1, 1⟩⟩

def revived : Operation := .undelete ⟨⟨3, 1⟩, ⟨1, 1⟩⟩

/-- Two replicas receive the character and its deletion, one of them in the wrong order. -/
def buffered : List Command :=
  [.localInsert 1 0 65 false, .localDelete 1 0 1, .deliver 2 typed, .deliver 2 erased,
    .deliver 3 erased, .deliver 3 typed]

/-- Two replicas receive the deletion before, and after, its undo. -/
def disorder : List Command :=
  [.localInsert 1 0 65 false, .localDelete 1 0 1, .undo 1, .deliver 2 typed, .deliver 2 erased,
    .deliver 2 revived, .deliver 3 typed, .deliver 3 revived, .deliver 3 erased]

theorem tombstones_converge_buffered : ∃ n, Run.run step init buffered = .ok n ∧
    (n.replicas 3).text = .ok [] ∧ Agree (n.replicas 2) (n.replicas 3) := by
  obtain ⟨n, ran, checked⟩ := Run.exists_of_ends (Run.run step init buffered)
    (fun n => decide ((n.replicas 3).text = .ok [] ∧ n.issued = [typed, erased] ∧
      n.received 2 = [typed, erased] ∧ n.received 3 = [erased, typed] ∧
      (n.replicas 2).pending = [] ∧ (n.replicas 3).pending = [])) (by decide)
  obtain ⟨text, issued, received, received', empty, empty'⟩ := of_decide_eq_true checked
  have undisputed : Undisputed [typed, erased] := by
    intro target d _ _ u undeletes
    simp [Undeletes, typed, erased] at undeletes
  exact ⟨n, ran, text, (tombstones_converge_iff (n := n) ⟨buffered, ran⟩ [typed, erased]
    (by simp [issued])).mpr (fun _ => undisputed) n (.refl n) 2 3 (by simp [received])
    (by simp [received', or_comm]) empty empty'⟩

/-- Two replicas that received the same operations and buffer nothing may disagree for ever. -/
theorem tombstones_diverge : ¬ ∀ n : Network, n.Reachable → ∀ i j,
    (∀ op, op ∈ n.received i ↔ op ∈ n.received j) → (n.replicas i).pending = [] →
    (n.replicas j).pending = [] → Agree (n.replicas i) (n.replicas j) := by
  intro converge
  obtain ⟨n, ran, checked⟩ := Run.exists_of_ends (Run.run step init disorder)
    (fun n => decide ((n.replicas 2).text = .ok [65] ∧ (n.replicas 3).text = .ok [] ∧
      n.received 2 ⊆ n.received 3 ∧ n.received 3 ⊆ n.received 2 ∧
      (n.replicas 2).pending = [] ∧ (n.replicas 3).pending = [])) (by decide)
  obtain ⟨text, text', inner, outer, empty, empty'⟩ := of_decide_eq_true checked
  have agree := (converge n ⟨disorder, ran⟩ 2 3
    (fun op => ⟨fun member => inner member, fun member => outer member⟩) empty empty').text
  rw [text, text'] at agree
  cases agree

end Network

end ConfluenceEditor
