/-
An engine and the operations it has applied.

`Built e history` says what the engine's state means: its tree is well formed, its nodes are the
inserts of `history`, every tombstone is what `dotOf` computes from `history`, and `applied` and the
clock cover the identifiers of `history`. An empty engine is built from nothing (`built_new`), and
applying one fresh, ready operation extends the history by it (`Built.applyKind_spec`,
`Built.doApply_spec`); every other field of the engine is then as before.
-/

import ConfluenceEditor.Engine.Engine
import ConfluenceEditor.Engine.Placement
import ConfluenceEditor.Engine.Tombstone

namespace ConfluenceEditor

/-- The operation's dependency is inserted by the history. -/
def DependencyMet (history : List Operation) (op : Operation) : Prop :=
  ∀ d, op.dependency = some d → ∃ ins : InsertOperation, .insert ins ∈ history ∧ ins.id = d

instance (history : List Operation) (op : Operation) : Decidable (DependencyMet history op) :=
  match named : op.dependency with
  | none => isTrue fun d other => by
      rw [named] at other
      cases other
  | some d => decidable_of_iff (∃ x ∈ history, x.insertedId = some d) (by
      simp only [DependencyMet, named, Option.some.injEq, forall_eq']
      constructor
      · rintro ⟨x, member, inserted⟩
        cases x with
        | insert ins => exact ⟨ins, member, Option.some.inj inserted⟩
        | delete del => cases inserted
        | undelete und => cases inserted
      · rintro ⟨ins, member, same⟩
        exact ⟨.insert ins, member, congrArg some same⟩)

/-- Every operation comes after the insert it depends on. -/
inductive Causal : List Operation → Prop where
  | nil : Causal []
  | snoc {history : List Operation} {op : Operation} (earlier : Causal history)
      (met : DependencyMet history op) : Causal (history ++ [op])

theorem DependencyMet.append {history : List Operation} {op : Operation}
    (met : DependencyMet history op) (later : List Operation) :
    DependencyMet (history ++ later) op := fun d named => by
  obtain ⟨ins, member, same⟩ := met d named
  exact ⟨ins, List.mem_append_left _ member, same⟩

theorem Causal.met {history : List Operation} (causal : Causal history) {op : Operation}
    (member : op ∈ history) : DependencyMet history op := by
  induction causal with
  | nil => cases member
  | snoc earlier met ih =>
      rcases List.mem_append.mp member with inside | last
      · exact (ih inside).append _
      · rw [List.mem_singleton.mp last]
        exact met.append _

theorem Causal.of_snoc {history : List Operation} {op : Operation}
    (causal : Causal (history ++ [op])) : Causal history ∧ DependencyMet history op := by
  generalize split : history ++ [op] = whole at causal
  cases causal with
  | nil => simp at split
  | snoc earlier met =>
      obtain ⟨rfl, same⟩ := List.append_inj' split rfl
      rw [List.singleton_inj.mp same]
      exact ⟨earlier, met⟩

theorem Causal.of_append {history later : List Operation} (causal : Causal (history ++ later)) :
    Causal history := by
  induction later using List.reverseRecOn with
  | nil => rwa [List.append_nil] at causal
  | append_singleton later op ih =>
      rw [← List.append_assoc] at causal
      exact ih causal.of_snoc.1

/-- Operations that extend one history extend every causal one with these inserts. -/
theorem Causal.extend {history larger later : List Operation} (causal : Causal (history ++ later))
    (base : Causal larger)
    (inside : ∀ ins : InsertOperation, .insert ins ∈ history → .insert ins ∈ larger) :
    Causal (larger ++ later) := by
  induction later using List.reverseRecOn with
  | nil => rwa [List.append_nil]
  | append_singleton later op ih =>
      rw [← List.append_assoc] at causal ⊢
      obtain ⟨earlier, met⟩ := causal.of_snoc
      refine (ih earlier).snoc fun d named => ?_
      obtain ⟨ins, member, same⟩ := met d named
      refine ⟨ins, ?_, same⟩
      rcases List.mem_append.mp member with old | new
      · exact List.mem_append_left _ (inside _ old)
      · exact List.mem_append_right _ new

/-- A part of a causal history that contains the inserts it depends on is causal. -/
theorem Causal.filter {history : List Operation} (causal : Causal history) (p : Operation → Bool)
    (closed : ∀ op ∈ history, p op = true → ∀ ins : InsertOperation, .insert ins ∈ history →
      op.dependency = some ins.id → p (.insert ins) = true) : Causal (history.filter p) := by
  induction causal with
  | nil => exact .nil
  | snoc earlier met ih =>
      rename_i history op
      have closed' := ih fun op' member kept ins inside named =>
        closed op' (List.mem_append_left _ member) kept ins (List.mem_append_left _ inside) named
      rw [List.filter_append]
      by_cases kept : p op = true
      · rw [List.filter_singleton, kept, cond_true]
        refine closed'.snoc fun d named => ?_
        obtain ⟨ins, member, rfl⟩ := met d named
        exact ⟨ins, List.mem_filter.mpr ⟨member, closed op (by simp) kept ins
          (List.mem_append_left _ member) named⟩, rfl⟩
      · rw [Bool.not_eq_true] at kept
        rw [List.filter_singleton, kept, cond_false, List.append_nil]
        exact closed'

/-- Each operation of the list finds its dependency in `known` or earlier in the list. -/
def Prepared (known : List Operation) : List Operation → Prop
  | [] => True
  | op :: ops => DependencyMet known op ∧ Prepared (known ++ [op]) ops

instance decidablePrepared : (known ops : List Operation) → Decidable (Prepared known ops)
  | _, [] => isTrue trivial
  | known, op :: ops =>
      have := decidablePrepared (known ++ [op]) ops
      inferInstanceAs (Decidable (DependencyMet known op ∧ Prepared (known ++ [op]) ops))

theorem Causal.append_prepared {known ops : List Operation} (causal : Causal known)
    (prepared : Prepared known ops) : Causal (known ++ ops) := by
  induction ops generalizing known with
  | nil => rwa [List.append_nil]
  | cons op ops ih =>
      rw [List.append_cons]
      exact ih (causal.snoc prepared.1) prepared.2

/-- Only the inserts of the known operations matter. -/
theorem Prepared.mono {known known' ops : List Operation} (prepared : Prepared known ops)
    (larger : ∀ ins : InsertOperation, .insert ins ∈ known → .insert ins ∈ known') :
    Prepared known' ops := by
  induction ops generalizing known known' with
  | nil => trivial
  | cons op ops ih =>
      refine ⟨fun d named => ?_, ih prepared.2 fun ins member => ?_⟩
      · obtain ⟨ins, member, same⟩ := prepared.1 d named
        exact ⟨ins, larger ins member, same⟩
      · rcases List.mem_append.mp member with old | new
        · exact List.mem_append_left _ (larger ins old)
        · exact List.mem_append_right _ new

theorem prepared_append {known first second : List Operation} :
    Prepared known (first ++ second) ↔ Prepared known first ∧ Prepared (known ++ first) second := by
  induction first generalizing known with
  | nil => simp [Prepared]
  | cons op first ih =>
      rw [List.cons_append, Prepared, Prepared, ih, and_assoc, List.append_assoc,
        List.singleton_append]

theorem prepared_of_met {known ops : List Operation} (met : ∀ op ∈ ops, DependencyMet known op) :
    Prepared known ops := by
  induction ops generalizing known with
  | nil => trivial
  | cons op ops ih =>
      exact ⟨met op List.mem_cons_self, ih fun x member =>
        (met x (List.mem_cons_of_mem _ member)).append _⟩

/-- A list is prepared when each dependency is among the operations, and none stands before the
insert it names. -/
theorem prepared_of_pairwise {known ops : List Operation}
    (met : ∀ op ∈ ops, ∀ d, op.dependency = some d →
      ∃ ins : InsertOperation, .insert ins ∈ known ++ ops ∧ ins.id = d ∧ .insert ins ≠ op)
    (ordered : ops.Pairwise fun op later => ∀ ins : InsertOperation, later = .insert ins →
      op.dependency ≠ some ins.id) : Prepared known ops := by
  induction ops generalizing known with
  | nil => trivial
  | cons op ops ih =>
      obtain ⟨first, rest⟩ := List.pairwise_cons.mp ordered
      refine ⟨fun d named => ?_, ih (fun x member d named => ?_) rest⟩
      · obtain ⟨ins, member, same, other⟩ := met op List.mem_cons_self d named
        refine ⟨ins, (List.mem_append.mp member).resolve_right fun inside => ?_, same⟩
        rcases List.mem_cons.mp inside with self | later
        · exact other self
        · exact first _ later ins rfl (by rw [named, same])
      · obtain ⟨ins, member, same⟩ := met x (List.mem_cons_of_mem _ member) d named
        exact ⟨ins, by rwa [List.append_assoc], same⟩

/-- Each operation of a prepared list names an insert that is known or stands before it. -/
theorem Prepared.met {known before after : List Operation} {op : Operation}
    (prepared : Prepared known (before ++ op :: after)) : DependencyMet (known ++ before) op :=
  (prepared_append.mp prepared).2.1

/-- The engine's document, applied set and clock are those of the applied operations. -/
structure Built (e : Engine) (history : List Operation) : Prop where
  wf : e.tree.WF
  inserts : ∀ op, op ∈ e.tree.nodes.map Node.toInsert ↔ .insert op ∈ history
  deletedBy : ∀ n ∈ e.tree.nodes, n.deletedBy = dotOf history n.id
  deleted : ∀ n ∈ e.tree.nodes, n.deleted = n.deletedBy.isSome
  applied : ∀ id, id ∈ e.applied ↔ ∃ op ∈ history, op.id = id
  nodup : (history.map Operation.id).Nodup
  clock : ∀ op ∈ history, op.id.c ≤ e.clock
  causal : Causal history

theorem built_new (replicaId : Nat) : Built (Engine.new replicaId) [] where
  wf := FugueTree.wf_empty
  inserts op := by simp [Engine.new]
  deletedBy n member := by simp [Engine.new] at member
  deleted n member := by simp [Engine.new] at member
  applied id := by simp [Engine.new]
  nodup := List.nodup_nil
  clock op member := by cases member
  causal := .nil

namespace Engine

/-- The fields that applying an operation leaves alone. -/
structure SameBuffers (e e' : Engine) : Prop where
  replicaId : e'.replicaId = e.replicaId
  pending : e'.pending = e.pending
  undoStack : e'.undoStack = e.undoStack
  redoStack : e'.redoStack = e.redoStack

theorem SameBuffers.trans {e e' e'' : Engine} (first : e.SameBuffers e')
    (second : e'.SameBuffers e'') : e.SameBuffers e'' :=
  ⟨second.replicaId.trans first.replicaId, second.pending.trans first.pending,
    second.undoStack.trans first.undoStack, second.redoStack.trans first.redoStack⟩

theorem noteCounter_eq (e : Engine) (id : Identifier) :
    ∃ counters, e.noteCounter id = { e with maxCounterByReplica := counters } := by
  unfold noteCounter
  split
  · split_ifs
    · exact ⟨_, rfl⟩
    · exact ⟨e.maxCounterByReplica, rfl⟩
  · exact ⟨_, rfl⟩

end Engine

namespace Built

open Engine

variable {e e' : Engine} {history : List Operation} {op : Operation}

/-- Only the tree, the applied set and a clock that is large enough matter. -/
theorem congr (built : Built e history) (tree : e'.tree = e.tree) (applied : e'.applied = e.applied)
    (clock : e.clock ≤ e'.clock) : Built e' history where
  wf := tree ▸ built.wf
  inserts := tree ▸ built.inserts
  deletedBy := tree ▸ built.deletedBy
  deleted := tree ▸ built.deleted
  applied := applied ▸ built.applied
  nodup := built.nodup
  clock op member := le_trans (built.clock op member) clock
  causal := built.causal

theorem nodes_eq (built : Built e history) : e.nodes = e.tree.nodes := built.wf.toArray_eq

theorem mem_history_of_node (built : Built e history) {n : Node} (member : n ∈ e.tree.nodes) :
    .insert n.toInsert ∈ history :=
  (built.inserts n.toInsert).mp (List.mem_map_of_mem member)

theorem hasIdentifier_iff (built : Built e history) {id : Identifier} :
    e.tree.hasIdentifier id = true ↔
      ∃ ins : InsertOperation, .insert ins ∈ history ∧ ins.id = id := by
  rw [built.wf.hasIdentifier_iff]
  constructor
  · rintro ⟨n, member, rfl⟩
    exact ⟨n.toInsert, built.mem_history_of_node member, rfl⟩
  · rintro ⟨ins, member, rfl⟩
    obtain ⟨n, inside, rfl⟩ := List.mem_map.mp ((built.inserts ins).mpr member)
    exact ⟨n, inside, rfl⟩

/-- Readiness is the presence of the dependency. -/
theorem ready_iff (built : Built e history) : e.ready op = true ↔ DependencyMet history op := by
  cases op with
  | insert op =>
      cases parent : op.parent with
      | none => simp [ready, isOriginPresent, parent, DependencyMet, Operation.dependency]
      | some p =>
          simp only [ready, isOriginPresent, parent, DependencyMet, Operation.dependency,
            Option.some.injEq, forall_eq']
          exact built.hasIdentifier_iff
  | delete op =>
      simp only [ready, DependencyMet, Operation.dependency, Option.some.injEq, forall_eq']
      exact built.hasIdentifier_iff
  | undelete op =>
      simp only [ready, DependencyMet, Operation.dependency, Option.some.injEq, forall_eq']
      exact built.hasIdentifier_iff

theorem hasApplied_iff (built : Built e history) {id : Identifier} :
    e.hasApplied id = true ↔ ∃ op ∈ history, op.id = id := by
  rw [hasApplied, decide_eq_true_iff, built.applied]

/-- The identifier of a node is the identifier of an applied operation. -/
theorem fresh_node (built : Built e history) {id : Identifier}
    (fresh : e.hasApplied id = false) : e.tree.hasIdentifier id = false := by
  rw [Bool.eq_false_iff] at fresh ⊢
  rintro present
  obtain ⟨ins, member, rfl⟩ := built.hasIdentifier_iff.mp present
  exact fresh (built.hasApplied_iff.mpr ⟨.insert ins, member, rfl⟩)

/-- The bookkeeping half of an extension of the history: everything but the nodes. -/
theorem extend (built : Built e history) (e' : Engine) (fresh : e.hasApplied op.id = false)
    (ready : e.ready op = true) (counter : op.id.c ≤ e.clock) {tree : FugueTree}
    (wf : tree.WF)
    (inserts : ∀ ins, ins ∈ tree.nodes.map Node.toInsert ↔ .insert ins ∈ history ++ [op])
    (deletedBy : ∀ n ∈ tree.nodes, n.deletedBy = dotOf (history ++ [op]) n.id)
    (deleted : ∀ n ∈ tree.nodes, n.deleted = n.deletedBy.isSome)
    (sameTree : e'.tree = tree) (sameApplied : e'.applied = op.id :: e.applied)
    (sameClock : e'.clock = e.clock) : Built e' (history ++ [op]) where
  wf := sameTree ▸ wf
  inserts := sameTree ▸ inserts
  deletedBy := sameTree ▸ deletedBy
  deleted := sameTree ▸ deleted
  applied id := by
    rw [sameApplied, List.mem_cons, built.applied]
    constructor
    · rintro (rfl | ⟨op', member, rfl⟩)
      · exact ⟨op, by simp, rfl⟩
      · exact ⟨op', by simp [member], rfl⟩
    · rintro ⟨op', member, rfl⟩
      rcases List.mem_append.mp member with earlier | last
      · exact Or.inr ⟨op', earlier, rfl⟩
      · exact Or.inl (by rw [List.mem_singleton.mp last])
  nodup := by
    rw [List.map_append, List.nodup_append]
    refine ⟨built.nodup, by simp, ?_⟩
    rintro id inside id' last rfl
    obtain ⟨op', member, rfl⟩ := List.mem_map.mp inside
    have same : op'.id = op.id := by simpa using last
    rw [built.hasApplied_iff.mpr ⟨op', member, same⟩] at fresh
    cases fresh
  clock op' member := by
    rw [sameClock]
    rcases List.mem_append.mp member with earlier | last
    · exact built.clock op' earlier
    · rw [List.mem_singleton.mp last]
      exact counter
  causal := built.causal.snoc (built.ready_iff.mp ready)

/-- A node that is not there yet has no attribution. -/
theorem dotOf_fresh (built : Built e history) {id : Identifier}
    (absent : e.tree.hasIdentifier id = false) : dotOf history id = none := by
  refine dotOf_eq_none fun d deletes => ?_
  obtain ⟨ins, member, same⟩ := built.causal.met deletes id rfl
  rw [built.hasIdentifier_iff.mpr ⟨ins, member, same⟩] at absent
  cases absent

/-- What an operation does to the list of inserts: an insert enters, the others leave it alone. -/
def SkeletonStep (skeleton skeleton' : List InsertOperation) : Operation → Prop
  | .insert op => ∃ before after, skeleton = before ++ after ∧ skeleton' = before ++ op :: after
  | _ => skeleton' = skeleton

/-- The state after a fresh, ready operation was applied. -/
structure Extended (e e' : Engine) (history : List Operation) (op : Operation) : Prop where
  built : Built e' (history ++ [op])
  buffers : e.SameBuffers e'
  clock : e'.clock = max e.clock op.id.c
  skeleton : SkeletonStep (e.tree.nodes.map Node.toInsert) (e'.tree.nodes.map Node.toInsert) op

theorem mem_skeleton_of_same (built : Built e history) {list : List InsertOperation}
    (same : list = e.tree.nodes.map Node.toInsert) (noInsert : ∀ ins, op ≠ .insert ins)
    (ins : InsertOperation) : ins ∈ list ↔ .insert ins ∈ history ++ [op] := by
  rw [same, built.inserts, List.mem_append, List.mem_singleton]
  exact ⟨Or.inl, fun member => member.resolve_right fun h => noInsert ins h.symm⟩

theorem applyInsert_spec (built : Built e history) {op : InsertOperation}
    (fresh : e.hasApplied op.id = false) (ready : e.ready (.insert op) = true)
    (counter : op.id.c ≤ e.clock) :
    ∃ e', e.applyInsert op = .ok e' ∧
      Extended e (e'.markApplied op.id) history (.insert op) := by
  have absent := built.fresh_node fresh
  obtain ⟨tree, attached, wf, -, before, after, old, new⟩ := built.wf.attach_spec op
    (fun p named => by simpa [Engine.ready, isOriginPresent, named] using ready) absent
  refine ⟨{ e with tree }, by rw [applyInsert, attached]; rfl, ?_, ⟨rfl, rfl, rfl, rfl⟩,
    (max_eq_left counter).symm, before.map Node.toInsert, after.map Node.toInsert, ?_, ?_⟩
  · refine built.extend (Engine.markApplied { e with tree } op.id) fresh ready counter wf
      (fun ins => ?_) (fun n member => ?_) (fun n member => ?_) rfl rfl rfl
    · have known := built.inserts ins
      rw [old] at known
      rw [new, List.mem_append, ← known]
      simp only [List.map_append, List.map_cons, List.mem_append, List.mem_cons,
        InsertOperation.toInsert_toNode, Operation.insert.injEq, List.not_mem_nil, or_false]
      tauto
    · rw [dotOf_append_singleton, stepDot]
      rw [new] at member
      rcases List.mem_append.mp member with inside | inside
      · exact built.deletedBy n (old ▸ List.mem_append_left _ inside)
      · rcases List.mem_cons.mp inside with rfl | inside
        · exact (built.dotOf_fresh absent).symm
        · exact built.deletedBy n (old ▸ List.mem_append_right _ inside)
    · rw [new] at member
      rcases List.mem_append.mp member with inside | inside
      · exact built.deleted n (old ▸ List.mem_append_left _ inside)
      · rcases List.mem_cons.mp inside with rfl | inside
        · rfl
        · exact built.deleted n (old ▸ List.mem_append_right _ inside)
  · rw [old, List.map_append]
  · change tree.nodes.map Node.toInsert = _
    rw [new, List.map_append, List.map_cons, InsertOperation.toInsert_toNode]

/-- Rewriting the flags of the target by the new attribution extends the history. -/
theorem flag_spec (built : Built e history) (op : Operation) (fresh : e.hasApplied op.id = false)
    (ready : e.ready op = true) (counter : op.id.c ≤ e.clock) (noInsert : ∀ ins, op ≠ .insert ins)
    {n : Node} (found : e.tree.nodeByIdentifier op.target = some n)
    (context : Identifier → Option DeleteContext) (dot : Option Identifier)
    (next : stepDot op.target n.deletedBy op = dot)
    (other : ∀ target, target ≠ op.target → ∀ d, stepDot target d op = d) :
    ∃ tree, e.tree.setDeleted op.target dot.isSome dot = .ok tree ∧
      Extended e (Engine.markApplied { e with tree, deleteContext := context } op.id)
        history op := by
  obtain ⟨member, named⟩ := built.wf.nodeByIdentifier_eq_some_iff.mp found
  have present : e.tree.hasIdentifier op.target = true :=
    built.wf.hasIdentifier_iff.mpr ⟨n, member, named⟩
  obtain ⟨tree, set, wf, -, list⟩ := built.wf.setDeleted_spec dot.isSome dot present
  have skeleton : tree.nodes.map Node.toInsert = e.tree.nodes.map Node.toInsert := by
    rw [list, List.map_map]
    exact List.map_congr_left fun m _ => FugueTree.flag_toInsert ..
  have atTarget : ∀ m ∈ e.tree.nodes, m.id = op.target → m = n := fun m inside same =>
    built.wf.eq_of_id_eq inside member (same.trans named.symm)
  refine ⟨tree, set, ?_, ⟨rfl, rfl, rfl, rfl⟩, (max_eq_left counter).symm, ?_⟩
  · refine built.extend _ fresh ready counter wf
      (built.mem_skeleton_of_same skeleton noInsert) (fun m inside => ?_) (fun m inside => ?_)
      rfl rfl rfl
    · rw [list] at inside
      obtain ⟨m, old, rfl⟩ := List.mem_map.mp inside
      rw [FugueTree.flag_id, dotOf_append_singleton, ← built.deletedBy m old, FugueTree.flag]
      split_ifs with same
      · rw [same, atTarget m old same, next]
      · exact (other m.id same m.deletedBy).symm
    · rw [list] at inside
      obtain ⟨m, old, rfl⟩ := List.mem_map.mp inside
      rw [FugueTree.flag]
      split_ifs with same
      · rfl
      · exact built.deleted m old
  · cases op with
    | insert ins => exact absurd rfl (noInsert ins)
    | delete op => exact skeleton
    | undelete op => exact skeleton

theorem exists_target (built : Built e history) {target : Identifier}
    (present : e.tree.hasIdentifier target = true) :
    ∃ n, e.tree.nodeByIdentifier target = some n := by
  obtain ⟨n, member, named⟩ := built.wf.hasIdentifier_iff.mp present
  exact ⟨n, built.wf.nodeByIdentifier_eq_some_iff.mpr ⟨member, named⟩⟩

theorem applyDelete_spec (built : Built e history) {op : DeleteOperation}
    (fresh : e.hasApplied op.id = false) (ready : e.ready (.delete op) = true)
    (counter : op.id.c ≤ e.clock) :
    ∃ e', e.applyDelete op = .ok e' ∧
      Extended e (e'.markApplied op.id) history (.delete op) := by
  obtain ⟨n, found⟩ := built.exists_target ready
  obtain ⟨tree, set, extended⟩ := built.flag_spec (.delete op) fresh ready counter
    (fun _ => by simp) found e.deleteContext (some (laterDelete op.id n.deletedBy))
    (if_pos rfl) (fun target ne d => if_neg fun same => ne same.symm)
  refine ⟨{ e with tree }, ?_, extended⟩
  rw [applyDelete, found]
  change (do let tree ← e.tree.setDeleted op.target true (some (laterDelete op.id n.deletedBy))
             .ok { e with tree }) = _
  rw [show e.tree.setDeleted op.target true (some (laterDelete op.id n.deletedBy)) = .ok tree
    from set]
  rfl

theorem applyUndelete_spec (built : Built e history) {op : UndeleteOperation}
    (fresh : e.hasApplied op.id = false) (ready : e.ready (.undelete op) = true)
    (counter : op.id.c ≤ e.clock) :
    ∃ e', e.applyUndelete op = .ok e' ∧
      Extended e (e'.markApplied op.id) history (.undelete op) := by
  obtain ⟨n, found⟩ := built.exists_target ready
  obtain ⟨member, named⟩ := built.wf.nodeByIdentifier_eq_some_iff.mp found
  have elsewhere : ∀ target, target ≠ op.target → ∀ d, stepDot target d (.undelete op) = d :=
    fun target ne d => if_neg fun same => ne same.symm
  -- a node that is visible, or deleted by another replica, keeps its flags
  have unchanged (kept : afterUndelete op.id n.deletedBy = n.deletedBy) :
      Extended e (e.markApplied op.id) history (.undelete op) := by
    refine ⟨built.extend _ fresh ready counter built.wf (built.mem_skeleton_of_same rfl
      fun _ => by simp) (fun m inside => ?_) built.deleted rfl rfl rfl, ⟨rfl, rfl, rfl, rfl⟩,
      (max_eq_left counter).symm, rfl⟩
    rw [dotOf_append_singleton, ← built.deletedBy m inside]
    by_cases same : m.id = op.target
    · rw [built.wf.eq_of_id_eq inside member (same.trans named.symm), named, stepDot, if_pos rfl,
        kept]
    · exact (elsewhere m.id same m.deletedBy).symm
  rw [applyUndelete, found]
  cases dot : n.deletedBy with
  | none => exact ⟨e, by simp [dot], unchanged (by rw [dot]; rfl)⟩
  | some deletedBy =>
      by_cases own : deletedBy.r = op.id.r
      · obtain ⟨tree, set, extended⟩ := built.flag_spec (.undelete op) fresh ready counter
          (fun _ => by simp) found (Function.update e.deleteContext deletedBy none) none
          (by rw [dot]; exact (if_pos rfl).trans (if_pos own)) elsewhere
        refine ⟨_, ?_, extended⟩
        simp only [dot, if_pos own]
        rw [show e.tree.setDeleted op.target false none = .ok tree from set]
        rfl
      · exact ⟨e, by simp [dot, own], unchanged (by rw [dot]; exact if_neg own)⟩

/-- Applying a fresh, ready operation succeeds and extends the history by it. -/
theorem applyKind_spec (built : Built e history) (op : Operation) (fresh : e.hasApplied op.id = false)
    (ready : e.ready op = true) (counter : op.id.c ≤ e.clock) :
    ∃ e', e.applyKind op = .ok e' ∧ Extended e (e'.markApplied op.id) history op := by
  cases op with
  | insert op => exact built.applyInsert_spec fresh ready counter
  | delete op => exact built.applyDelete_spec fresh ready counter
  | undelete op => exact built.applyUndelete_spec fresh ready counter

theorem doApply_spec (built : Built e history) (fresh : e.hasApplied op.id = false)
    (ready : e.ready op = true) :
    ∃ e', e.doApply op = .ok e' ∧ Extended e e' history op := by
  obtain ⟨counters, noted⟩ := noteCounter_eq (e.observe op.id.c) op.id
  have built' : Built ((e.observe op.id.c).noteCounter op.id) history := by
    rw [noted]
    exact built.congr rfl rfl (le_max_left ..)
  obtain ⟨e', applied, extended⟩ := built'.applyKind_spec op (by rw [noted]; exact fresh)
    (by rw [noted]; exact ready) (by rw [noted]; exact le_max_right ..)
  refine ⟨e'.markApplied op.id, by rw [doApply, applied]; rfl, extended.built, ?_, ?_, ?_⟩
  · have buffers := extended.buffers
    rw [noted] at buffers
    exact ⟨buffers.replicaId, buffers.pending, buffers.undoStack, buffers.redoStack⟩
  · rw [extended.clock, noted]
    exact max_eq_left (le_max_right ..)
  · have skeleton := extended.skeleton
    rw [noted] at skeleton
    exact skeleton

end Built

end ConfluenceEditor
