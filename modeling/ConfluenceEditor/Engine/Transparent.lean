/-
Garbage collection is transparent.

An engine that collects is compared with one that receives the same operations and never collects.
`Thinned gone` relates the two: the tree of the first is the tree of the second without the nodes
`gone`, which are tombstones and contain everything below them. Every operation that names none of
them does the same to both (`Thinned.applyRemote`), and a collection enlarges `gone`. So a whole
stream keeps the relation (`collect_transparent`).
-/

import ConfluenceEditor.Engine.Collect
import ConfluenceEditor.Library.Run

namespace ConfluenceEditor

open SidedForest SidedForest.Forest

namespace FugueTree

variable {t t' t₁ t₁' : FugueTree} {keep : Node → Bool}

theorem Node.siblingLess_of_le {n a b : Node} (order : a.siblingLE b)
    (less : n.siblingLess a = true) : n.siblingLess b = true := by
  rw [Node.siblingLess, rankLess_eq_true] at *
  rw [Node.siblingLE, InsertOperation.siblingLE, rankLess_eq_false] at order
  simp only [Node.toInsert_id, Node.toInsert_bind] at order
  omega

/-- The nodes below a dropped one are dropped. -/
def Closed (keep : Node → Bool) (t : FugueTree) : Prop :=
  ∀ m n, n ∈ t.nodes → keep m = false → n.parent = some m.id → keep n = false

/-- A kept insert under a kept node goes to the same place in the pruned tree. -/
theorem Pruned.attach (pruned : Pruned keep t t') (wf : t.WF) (closed : Closed keep t)
    {op : InsertOperation} (kept : keep op.toNode = true)
    (target : ∀ n ∈ t.nodes, op.parent = some n.id → keep n = true)
    (attached : t.attach op.id op.value op.bind op.parent op.side = .ok t₁)
    (attached' : t'.attach op.id op.value op.bind op.parent op.side = .ok t₁') :
    Pruned keep t₁ t₁' := by
  have sorted : ∀ a b : Node, a.siblingLE b → Node.siblingLess op.toNode a = true →
      Node.siblingLess op.toNode b = true := fun _ _ => Node.siblingLess_of_le
  cases under : op.parent with
  | none =>
      have full := attach_public_root under attached
      have thin := attach_public_root under attached'
      rw [pruned.left, pruned.right, wf.rows.prune_insertIn sorted kept, ← full] at thin
      exact ⟨congrArg Prod.fst thin, congrArg Prod.snd thin⟩
  | some p =>
      have full := attach_public_under under attached
      have thin := attach_public_under under attached'
      have closedBelow : Rows.ClosedBelow Node.id Node.parent keep
          (t.leftChildren.map TreeNode.toPublicNode) (t.rightChildren.map TreeNode.toPublicNode) :=
        fun m n member => closed m n (inorder_public t ▸ member)
      have keeps : ∀ n ∈ (t.leftChildren.map TreeNode.toPublicNode).inorder ++
          (t.rightChildren.map TreeNode.toPublicNode).inorder, decide (n.id = p) = true →
          keep n = true := by
        intro n member named
        rw [inorder_public] at member
        exact target n member (by rw [under, of_decide_eq_true named])
      rw [pruned.left, pruned.right, wf.rows.prune_updateIn closedBelow sorted kept keeps full]
        at thin
      obtain ⟨left, right⟩ := Prod.mk.inj (Option.some.inj thin)
      exact ⟨left.symm, right.symm⟩

/-- Setting the flags of a node, in both trees. -/
theorem Pruned.setDeleted (pruned : Pruned keep t t') (wf : t.WF) (wf' : t'.WF)
    {id : Identifier} {deleted : Bool} {deletedBy : Option Identifier}
    (same : ∀ n, keep (flag id deleted deletedBy n) = keep n)
    (set : t.setDeleted id deleted deletedBy = .ok t₁)
    (set' : t'.setDeleted id deleted deletedBy = .ok t₁') : Pruned keep t₁ t₁' := by
  obtain ⟨left, right⟩ := wf.setDeleted_public set
  obtain ⟨left', right'⟩ := wf'.setDeleted_public set'
  have kept : (fun n => keep (flag id deleted deletedBy n)) = keep := funext same
  constructor
  · rw [left', left, pruned.left]
    exact (congrArg (map _) (congrArg (prune · _) kept.symm)).trans (prune_map ..).symm
  · rw [right', right, pruned.right]
    exact (congrArg (map _) (congrArg (prune · _) kept.symm)).trans (prune_map ..).symm

end FugueTree

namespace Engine

/-- A node with this identifier is present. -/
def hasIdentifier (e : Engine) (id : Identifier) : Bool := e.tree.hasIdentifier id

/-- The second engine is the first without the tombstones `gone`. -/
structure Thinned (gone : List Identifier) (e e' : Engine) : Prop where
  sound : e.Sound
  sound' : e'.Sound
  pruned : FugueTree.Pruned (fun n => n.id ∉ gone) e.tree e'.tree
  closed : ClosedBelow e.tree.nodes gone
  deleted : ∀ n ∈ e.tree.nodes, n.id ∈ gone → n.deleted = true
  known : ∀ id ∈ gone, id ∈ e.applied
  applied : e'.applied = e.applied
  pending : e'.pending = e.pending
  clock : e'.clock = e.clock

/-- The operation depends on none of these nodes. -/
def FreeOf (gone : List Identifier) (op : Operation) : Prop :=
  ∀ d, op.dependency = some d → d ∉ gone

theorem ready_iff_dependency {e : Engine} {op : Operation} : e.ready op = true ↔
    ∀ d, op.dependency = some d → e.tree.hasIdentifier d = true := by
  cases op with
  | insert op =>
      show e.isOriginPresent op.parent = true ↔ ∀ d, op.parent = some d → _
      unfold isOriginPresent
      cases op.parent with
      | none => simp
      | some p => simp
  | delete op => simp [Engine.ready, Operation.dependency]
  | undelete op => simp [Engine.ready, Operation.dependency]

namespace Thinned

variable {gone : List Identifier} {e e' : Engine} {op : Operation}

theorem closedKeep (thinned : Thinned gone e e') :
    FugueTree.Closed (fun n => n.id ∉ gone) e.tree := by
  intro m n member dropped under
  simp only [decide_not, Bool.not_eq_false', decide_eq_true_eq] at dropped ⊢
  exact thinned.closed n member m.id under dropped

theorem nodes (thinned : Thinned gone e e') :
    e'.tree.nodes = e.tree.nodes.filter fun n => n.id ∉ gone :=
  thinned.pruned.nodes thinned.sound.wf thinned.closedKeep

theorem mem_nodes (thinned : Thinned gone e e') {n : Node} :
    n ∈ e'.tree.nodes ↔ n ∈ e.tree.nodes ∧ n.id ∉ gone := by
  rw [thinned.nodes, List.mem_filter, decide_eq_true_eq]

/-- A node that is not gone is found in both. -/
theorem nodeByIdentifier (thinned : Thinned gone e e') {id : Identifier} (free : id ∉ gone) :
    e'.tree.nodeByIdentifier id = e.tree.nodeByIdentifier id := by
  apply Option.ext
  intro n
  rw [thinned.sound'.wf.nodeByIdentifier_eq_some_iff, thinned.mem_nodes,
    thinned.sound.wf.nodeByIdentifier_eq_some_iff]
  exact ⟨fun ⟨⟨member, _⟩, named⟩ => ⟨member, named⟩,
    fun ⟨member, named⟩ => ⟨⟨member, named ▸ free⟩, named⟩⟩

theorem hasIdentifier (thinned : Thinned gone e e') {id : Identifier} (free : id ∉ gone) :
    e'.tree.hasIdentifier id = e.tree.hasIdentifier id := by
  rw [Bool.eq_iff_iff, thinned.sound'.wf.hasIdentifier_iff, thinned.sound.wf.hasIdentifier_iff]
  constructor
  · rintro ⟨n, member, named⟩
    exact ⟨n, (thinned.mem_nodes.mp member).1, named⟩
  · rintro ⟨n, member, named⟩
    exact ⟨n, thinned.mem_nodes.mpr ⟨member, named ▸ free⟩, named⟩

theorem ready (thinned : Thinned gone e e') (free : FreeOf gone op) : e'.ready op = e.ready op := by
  rw [Bool.eq_iff_iff, ready_iff_dependency, ready_iff_dependency]
  refine forall_congr' fun d => imp_congr_right fun named => ?_
  rw [thinned.hasIdentifier (free d named)]

theorem hasApplied (thinned : Thinned gone e e') (id : Identifier) :
    e'.hasApplied id = e.hasApplied id := by
  rw [Engine.hasApplied, Engine.hasApplied, thinned.applied]

/-- Fields that the relation does not mention. -/
theorem congr (thinned : Thinned gone e e') {f f' : Engine} (tree : f.tree = e.tree)
    (tree' : f'.tree = e'.tree) (applied : f.applied = e.applied)
    (applied' : f'.applied = e'.applied) (clock : e.clock ≤ f.clock) (clocks : f'.clock = f.clock)
    (pendings : f'.pending = f.pending) : Thinned gone f f' where
  sound := thinned.sound.congr tree applied clock
  sound' := thinned.sound'.congr tree' applied' (by rw [clocks, thinned.clock]; exact clock)
  pruned := by
    rw [tree, tree']
    exact thinned.pruned
  closed := by
    rw [tree]
    exact thinned.closed
  deleted := by
    rw [tree]
    exact thinned.deleted
  known id member := by
    rw [applied]
    exact thinned.known id member
  applied := by rw [applied, applied', thinned.applied]
  pending := pendings
  clock := clocks

/-! ### One operation -/

/-- Both engines after one more operation, with new trees. -/
theorem extend (thinned : Thinned gone e e') (fresh : op.id ∉ e.applied)
    (counter : op.id.c ≤ e.clock) {tree tree' : FugueTree} (wf : tree.WF) (wf' : tree'.WF)
    (pruned : FugueTree.Pruned (fun n => n.id ∉ gone) tree tree')
    (nodes : ∀ n ∈ tree.nodes, n.id = op.id ∨
      ∃ m ∈ e.tree.nodes, m.toInsert = n.toInsert ∧ (n.id ∈ gone → n.deleted = m.deleted))
    (parent : ∀ n ∈ tree.nodes, n.id = op.id → ∀ p, n.parent = some p → p ∉ gone)
    (contexts contexts' : Identifier → Option DeleteContext) :
    Thinned gone (markApplied { e with tree, deleteContext := contexts } op.id)
      (markApplied { e' with tree := tree', deleteContext := contexts' } op.id) := by
  have outside : op.id ∉ gone := fun member => fresh (thinned.known _ member)
  have ids : ∀ n ∈ tree.nodes, n.id = op.id ∨ ∃ m ∈ e.tree.nodes, m.id = n.id := fun n member =>
    (nodes n member).imp_right fun ⟨m, old, same, _⟩ =>
      ⟨m, old, congrArg InsertOperation.id same⟩
  have closed : ClosedBelow tree.nodes gone := by
    intro n member p under dropped
    rcases nodes n member with same | ⟨m, old, same, -⟩
    · exact absurd dropped (parent n member same p under)
    · have id : m.id = n.id := congrArg InsertOperation.id same
      have sameParent : m.parent = n.parent := congrArg InsertOperation.parent same
      exact id ▸ thinned.closed m old p (sameParent ▸ under) dropped
  have ids' : ∀ n ∈ tree'.nodes, n.id = op.id ∨ ∃ m ∈ e'.tree.nodes, m.id = n.id := by
    intro n member
    have list : tree'.nodes = tree.nodes.filter fun n => n.id ∉ gone := by
      refine pruned.nodes wf fun m k inside dropped under => ?_
      simp only [decide_not, Bool.not_eq_false', decide_eq_true_eq] at dropped ⊢
      exact closed k inside m.id under dropped
    rw [list, List.mem_filter, decide_eq_true_eq] at member
    refine (ids n member.1).imp_right fun ⟨m, old, same⟩ => ⟨m, ?_, same⟩
    exact thinned.mem_nodes.mpr ⟨old, same ▸ member.2⟩
  have fresh' : op.id ∉ e'.applied := thinned.applied ▸ fresh
  have counter' : op.id.c ≤ e'.clock := thinned.clock ▸ counter
  refine ⟨(thinned.sound.applied_of_tree op counter wf ids contexts).sound,
    (thinned.sound'.applied_of_tree op counter' wf' ids' contexts').sound, pruned, closed,
    fun n member dropped => ?_, fun id member => List.mem_cons_of_mem _ (thinned.known id member),
    ?_, thinned.pending, thinned.clock⟩
  · rcases nodes n member with same | ⟨m, old, same, flags⟩
    · exact absurd (same ▸ dropped) outside
    · have id : m.id = n.id := congrArg InsertOperation.id same
      exact (flags dropped).trans (thinned.deleted m old (id ▸ dropped))
  · exact congrArg (List.cons op.id) thinned.applied

/-- The flags of a node that is not gone, set in both. -/
theorem setDeleted (thinned : Thinned gone e e') (fresh : op.id ∉ e.applied)
    (counter : op.id.c ≤ e.clock) {target : Identifier}
    (present : e.tree.hasIdentifier target = true) (free : target ∉ gone) (deleted : Bool)
    (deletedBy : Option Identifier) :
    ∃ tree tree', e.tree.setDeleted target deleted deletedBy = .ok tree ∧
      e'.tree.setDeleted target deleted deletedBy = .ok tree' ∧ ∀ contexts contexts',
        Thinned gone (markApplied { e with tree, deleteContext := contexts } op.id)
          (markApplied { e' with tree := tree', deleteContext := contexts' } op.id) := by
  have present' : e'.tree.hasIdentifier target = true := (thinned.hasIdentifier free).trans present
  obtain ⟨tree, set, wf, -, list⟩ := thinned.sound.wf.setDeleted_spec deleted deletedBy present
  obtain ⟨tree', set', wf', -⟩ := thinned.sound'.wf.setDeleted_spec deleted deletedBy present'
  have pruned := thinned.pruned.setDeleted thinned.sound.wf thinned.sound'.wf
    (fun n => by simp only [FugueTree.flag_id]) set set'
  refine ⟨tree, tree', set, set', thinned.extend fresh counter wf wf' pruned (fun n member => ?_)
    fun n member same => ?_⟩
  · rw [list] at member
    obtain ⟨m, old, rfl⟩ := List.mem_map.mp member
    refine Or.inr ⟨m, old, (FugueTree.flag_toInsert ..).symm, fun dropped => ?_⟩
    rw [FugueTree.flag_id] at dropped
    rw [FugueTree.flag, if_neg fun named : m.id = target => free (named ▸ dropped)]
  · rw [list] at member
    obtain ⟨m, old, rfl⟩ := List.mem_map.mp member
    rw [FugueTree.flag_id] at same
    exact absurd (same ▸ thinned.sound.known m old) fresh

/-- The same application of an operation by its kind. -/
theorem applyKind (thinned : Thinned gone e e') (fresh : op.id ∉ e.applied)
    (counter : op.id.c ≤ e.clock) (ready : e.ready op = true) (free : FreeOf gone op) :
    ∃ e₁ e₁', e.applyKind op = .ok e₁ ∧ e'.applyKind op = .ok e₁' ∧
      Thinned gone (e₁.markApplied op.id) (e₁'.markApplied op.id) ∧ e₁.pending = e.pending ∧
      e₁.applied = e.applied := by
  have ready' : e'.ready op = true := (thinned.ready free).trans ready
  have outside : op.id ∉ gone := fun member => fresh (thinned.known _ member)
  cases op with
  | insert op =>
      have present : ∀ p, op.parent = some p → e.tree.hasIdentifier p = true := fun p under => by
        simpa [Engine.ready, isOriginPresent, under] using ready
      have present' : ∀ p, op.parent = some p → e'.tree.hasIdentifier p = true := fun p under =>
        (thinned.hasIdentifier (free p under)).trans (present p under)
      obtain ⟨tree, attached, wf, -, before, after, old, new⟩ :=
        thinned.sound.wf.attach_spec op present (thinned.sound.fresh_node fresh)
      obtain ⟨tree', attached', wf', -⟩ :=
        thinned.sound'.wf.attach_spec op present'
          (thinned.sound'.fresh_node (thinned.applied ▸ fresh))
      have pruned := thinned.pruned.attach thinned.sound.wf thinned.closedKeep
        (decide_eq_true outside)
        (fun n _ under => decide_eq_true (free n.id under)) attached attached'
      refine ⟨{ e with tree }, { e' with tree := tree' }, ?_, ?_, ?_, rfl, rfl⟩
      · rw [Engine.applyKind, applyInsert, attached]
        rfl
      · rw [Engine.applyKind, applyInsert, attached']
        rfl
      · refine thinned.extend fresh counter wf wf' pruned (fun n member => ?_)
          (fun n member same p under => ?_) e.deleteContext e'.deleteContext
        · rw [new] at member
          rcases List.mem_append.mp member with first | rest
          · exact Or.inr ⟨n, old ▸ List.mem_append_left _ first, rfl, fun _ => rfl⟩
          · rcases List.mem_cons.mp rest with rfl | last
            · exact Or.inl rfl
            · exact Or.inr ⟨n, old ▸ List.mem_append_right _ last, rfl, fun _ => rfl⟩
        · have isNew : n = op.toNode := by
            refine wf.eq_of_id_eq member ?_ same
            rw [new]
            exact List.mem_append_right _ List.mem_cons_self
          exact free p (by rw [isNew] at under; exact under)
  | delete op =>
      have target : op.target ∉ gone := free op.target rfl
      obtain ⟨n, found⟩ := thinned.sound.exists_target ready
      have found' := (thinned.nodeByIdentifier target).trans found
      obtain ⟨tree, tree', set, set', related⟩ := thinned.setDeleted
        (show (Operation.delete op).id ∉ e.applied from fresh) counter ready target true
        (some (laterDelete op.id n.deletedBy))
      exact ⟨_, _, Sound.applyDelete_eq found set, Sound.applyDelete_eq found' set',
        related e.deleteContext e'.deleteContext, rfl, rfl⟩
  | undelete op =>
      have target : op.target ∉ gone := free op.target rfl
      obtain ⟨n, found⟩ := thinned.sound.exists_target ready
      have found' := (thinned.nodeByIdentifier target).trans found
      by_cases own : ∃ d, n.deletedBy = some d ∧ d.r = op.id.r
      · obtain ⟨d, dot, own⟩ := own
        obtain ⟨tree, tree', set, set', related⟩ := thinned.setDeleted
          (show (Operation.undelete op).id ∉ e.applied from fresh) counter ready target false none
        exact ⟨_, _, Sound.applyUndelete_eq_own found dot own set,
          Sound.applyUndelete_eq_own found' dot own set', related _ _, rfl, rfl⟩
      · have other : ∀ d, n.deletedBy = some d → d.r ≠ op.id.r := fun d dot same =>
          own ⟨d, dot, same⟩
        refine ⟨e, e', Sound.applyUndelete_eq_spared found other,
          Sound.applyUndelete_eq_spared found' other, ?_, rfl, rfl⟩
        refine thinned.extend (show (Operation.undelete op).id ∉ e.applied from fresh) counter
          thinned.sound.wf thinned.sound'.wf thinned.pruned
          (fun m member => Or.inr ⟨m, member, rfl, fun _ => rfl⟩)
          (fun m member same => ?_) e.deleteContext e'.deleteContext
        exact absurd (same ▸ thinned.sound.known m member) fresh

theorem doApply (thinned : Thinned gone e e') (fresh : op.id ∉ e.applied)
    (ready : e.ready op = true) (free : FreeOf gone op) :
    ∃ e₁ e₁', e.doApply op = .ok e₁ ∧ e'.doApply op = .ok e₁' ∧ Thinned gone e₁ e₁' ∧
      e₁.pending = e.pending := by
  obtain ⟨counters, noted⟩ := noteCounter_eq (e.observe op.id.c) op.id
  obtain ⟨counters', noted'⟩ := noteCounter_eq (e'.observe op.id.c) op.id
  set f : Engine := { e.observe op.id.c with maxCounterByReplica := counters }
  set f' : Engine := { e'.observe op.id.c with maxCounterByReplica := counters' }
  have observed : Thinned gone f f' := thinned.congr rfl rfl rfl rfl (le_max_left ..)
    (congrArg (max · op.id.c) thinned.clock) thinned.pending
  obtain ⟨e₁, e₁', applied, applied', related, pending, -⟩ :=
    observed.applyKind fresh (le_max_right ..) ready free
  refine ⟨e₁.markApplied op.id, e₁'.markApplied op.id, ?_, ?_, related, pending⟩
  · rw [Engine.doApply, noted, applied]
    rfl
  · rw [Engine.doApply, noted', applied']
    rfl

/-! ### Deliveries -/

theorem drainPass (thinned : Thinned gone e e') (offered : List Operation)
    (free : ∀ op ∈ offered, FreeOf gone op) :
    ∃ e₁ e₁' kept progressed, e.drainPass offered = .ok (e₁, kept, progressed) ∧
      e'.drainPass offered = .ok (e₁', kept, progressed) ∧ Thinned gone e₁ e₁' ∧
      ∀ op ∈ kept, op ∈ offered := by
  induction offered with
  | nil => exact ⟨e, e', [], false, rfl, rfl, thinned, by simp⟩
  | cons op offered ih =>
      obtain ⟨e₁, e₁', kept, progressed, swept, swept', related, inside⟩ :=
        ih fun x member => free x (List.mem_cons_of_mem _ member)
      have inside' : ∀ x ∈ kept, x ∈ op :: offered := fun x member =>
        List.mem_cons_of_mem _ (inside x member)
      have sameApplied := related.hasApplied op.id
      have sameReady := related.ready (free op List.mem_cons_self)
      by_cases known : e₁.hasApplied op.id = true
      · refine ⟨e₁, e₁', kept, true, ?_, ?_, related, inside'⟩
        · simp [Engine.drainPass, swept, known, bind, Except.bind]
        · simp [Engine.drainPass, swept', sameApplied, known, bind, Except.bind]
      · by_cases ready : e₁.ready op = true
        · have fresh : op.id ∉ e₁.applied := fun member => known (decide_eq_true member)
          obtain ⟨e₂, e₂', done, done', related₂, -⟩ :=
            related.doApply fresh ready (free op List.mem_cons_self)
          refine ⟨e₂, e₂', kept, true, ?_, ?_, related₂, inside'⟩
          · simp [Engine.drainPass, swept, known, ready, done, bind, Except.bind]
          · simp [Engine.drainPass, swept', sameApplied, known, sameReady, ready, done', bind,
              Except.bind]
        · refine ⟨e₁, e₁', op :: kept, progressed, ?_, ?_, related, fun x member => ?_⟩
          · simp [Engine.drainPass, swept, known, ready, bind, Except.bind]
          · simp [Engine.drainPass, swept', sameApplied, known, sameReady, ready, bind,
              Except.bind]
          · rcases List.mem_cons.mp member with rfl | later
            · exact List.mem_cons_self
            · exact inside' x later

theorem drainLoop (sweeps : Nat) {e e' : Engine} (thinned : Thinned gone e e')
    (free : ∀ op ∈ e.pending, FreeOf gone op) :
    ∃ e₁ e₁', Engine.drainLoop sweeps e = .ok e₁ ∧ Engine.drainLoop sweeps e' = .ok e₁' ∧
      Thinned gone e₁ e₁' ∧ ∀ op ∈ e₁.pending, op ∈ e.pending := by
  induction sweeps generalizing e e' with
  | zero => exact ⟨e, e', rfl, rfl, thinned, fun _ member => member⟩
  | succ sweeps ih =>
      obtain ⟨e₁, e₁', kept, progressed, swept, swept', related, inside⟩ :=
        thinned.drainPass e.pending free
      rw [← thinned.pending] at swept'
      have trimmed : Thinned gone { e₁ with pending := kept } { e₁' with pending := kept } :=
        related.congr rfl rfl rfl rfl (le_refl _) related.clock rfl
      cases progressed with
      | false =>
          refine ⟨_, _, ?_, ?_, trimmed, inside⟩
          · simp [Engine.drainLoop, swept, bind, Except.bind]
          · simp [Engine.drainLoop, swept', bind, Except.bind]
      | true =>
          obtain ⟨e₂, e₂', looped, looped', related₂, inside₂⟩ :=
            ih trimmed fun op member => free op (inside op member)
          refine ⟨e₂, e₂', ?_, ?_, related₂, fun op member => inside op (inside₂ op member)⟩
          · simp [Engine.drainLoop, swept, looped, bind, Except.bind]
          · simp [Engine.drainLoop, swept', looped', bind, Except.bind]

theorem doApply_drain (thinned : Thinned gone e e') (fresh : op.id ∉ e.applied)
    (ready : e.ready op = true) (free : FreeOf gone op)
    (waiting : ∀ op ∈ e.pending, FreeOf gone op) :
    ∃ e₁ e₁', (do let e ← e.doApply op; e.drain) = .ok e₁ ∧
      (do let e ← e'.doApply op; e.drain) = .ok e₁' ∧ Thinned gone e₁ e₁' ∧
      ∀ op ∈ e₁.pending, op ∈ e.pending := by
  obtain ⟨e₁, e₁', done, done', related, pending⟩ := thinned.doApply fresh ready free
  obtain ⟨e₂, e₂', looped, looped', related₂, inside⟩ :=
    related.drainLoop (e₁.pending.length + 1) (pending ▸ waiting)
  refine ⟨e₂, e₂', ?_, ?_, related₂, pending ▸ inside⟩
  · rw [done]
    exact looped
  · rw [done']
    show e₁'.drain = .ok e₂'
    rw [drain, related.pending]
    exact looped'

/-- The same delivery, to both. -/
theorem applyRemote (thinned : Thinned gone e e') (free : FreeOf gone op)
    (waiting : ∀ op ∈ e.pending, FreeOf gone op) (context : Option DeleteContext) :
    ∃ buffered e₁ e₁', e.applyRemote op context = .ok (buffered, e₁) ∧
      e'.applyRemote op context = .ok (buffered, e₁') ∧ Thinned gone e₁ e₁' ∧
      ∀ x ∈ e₁.pending, FreeOf gone x := by
  obtain ⟨contexts, recorded⟩ := Built.recordContext_eq e op context
  obtain ⟨contexts', recorded'⟩ := Built.recordContext_eq e' op context
  set f : Engine := { e with deleteContext := contexts }
  set f' : Engine := { e' with deleteContext := contexts' }
  have start : Thinned gone f f' := thinned.congr rfl rfl rfl rfl (le_refl _) thinned.clock
    thinned.pending
  rw [Engine.applyRemote, recorded, Engine.applyRemote, recorded']
  simp only [start.hasApplied op.id, start.ready free]
  by_cases known : f.hasApplied op.id = true
  · exact ⟨false, f, f', if_pos known, if_pos known, start, waiting⟩
  · by_cases ready : f.ready op = true
    · have fresh : op.id ∉ f.applied := fun member => known (decide_eq_true member)
      obtain ⟨e₁, e₁', done, done', related, inside⟩ :=
        start.doApply_drain fresh ready free waiting
      obtain ⟨g, first, second⟩ := Throwing.ok_of_bind done
      obtain ⟨g', first', second'⟩ := Throwing.ok_of_bind done'
      refine ⟨false, e₁, e₁', ?_, ?_, related, fun x member => waiting x (inside x member)⟩
      · simp [known, ready, first, second, bind, Except.bind]
      · simp [known, ready, first', second', bind, Except.bind]
    · refine ⟨true, { f with pending := f.pending ++ [op] },
        { f' with pending := f'.pending ++ [op] }, by simp [known, ready], by simp [known, ready],
        start.congr rfl rfl rfl rfl (le_refl _) start.clock (congrArg (· ++ [op]) start.pending),
        fun x member => ?_⟩
      rcases List.mem_append.mp member with old | new
      · exact waiting x old
      · rw [List.mem_singleton.mp new]
        exact free

/-- A collection of the second engine. -/
theorem collect (thinned : Thinned gone e e') {e₁' : Engine} {more : List Identifier}
    (collected : Collected e' e₁' more)
    (deleted : ∀ id ∈ more, ∃ n ∈ e'.tree.nodes, n.id = id ∧ n.deleted = true) :
    Thinned (gone ++ more) e e₁' := by
  obtain ⟨tree, contexts, rfl⟩ := collected.frame
  refine ⟨thinned.sound, thinned.sound'.moves collected.moves, ?_, ?_, ?_, ?_, thinned.applied,
    thinned.pending, thinned.clock⟩
  · refine (thinned.pruned.trans collected.pruned).congr fun n _ => ?_
    simp
  · intro n member p under dropped
    rw [List.mem_append] at *
    by_cases early : n.id ∈ gone
    · exact Or.inl early
    · rcases dropped with old | new
      · exact absurd (thinned.closed n member p under old) early
      · exact Or.inr (collected.closed n (thinned.mem_nodes.mpr ⟨member, early⟩) p under new)
  · intro n member dropped
    rcases List.mem_append.mp dropped with old | new
    · exact thinned.deleted n member old
    · obtain ⟨m, inside, same, flag⟩ := deleted n.id new
      rw [← thinned.sound.wf.eq_of_id_eq (thinned.mem_nodes.mp inside).1 member same]
      exact flag
  · intro id dropped
    rcases List.mem_append.mp dropped with old | new
    · exact thinned.known id old
    · obtain ⟨m, inside, rfl, -⟩ := deleted id new
      exact thinned.sound.known m (thinned.mem_nodes.mp inside).1

theorem visible_eq (thinned : Thinned gone e e') : e'.visible = e.visible := by
  have list : e.nodes = e.tree.nodes := thinned.sound.wf.toArray_eq
  have list' : e'.nodes = e'.tree.nodes := thinned.sound'.wf.toArray_eq
  rw [visible, visible, list, list', thinned.nodes, List.filter_filter]
  refine List.filter_congr fun n member => ?_
  by_cases dropped : n.id ∈ gone
  · simp [thinned.deleted n member dropped]
  · simp [dropped]

theorem text_eq (thinned : Thinned gone e e') : e'.text = e.text := by
  rw [text, text, thinned.visible_eq]

theorem nodes_eq (thinned : Thinned gone e e') :
    e'.nodes = e.nodes.filter fun n => e'.hasIdentifier n.id := by
  have list : e.nodes = e.tree.nodes := thinned.sound.wf.toArray_eq
  have list' : e'.nodes = e'.tree.nodes := thinned.sound'.wf.toArray_eq
  rw [list, list', thinned.nodes]
  refine List.filter_congr fun n member => ?_
  rw [Bool.eq_iff_iff, decide_eq_true_eq]
  show n.id ∉ gone ↔ e'.tree.hasIdentifier n.id = true
  rw [thinned.sound'.wf.hasIdentifier_iff]
  constructor
  · exact fun kept => ⟨n, thinned.mem_nodes.mpr ⟨member, kept⟩, rfl⟩
  · rintro ⟨m, inside, same⟩
    exact same ▸ (thinned.mem_nodes.mp inside).2

end Thinned

end Engine

/-! ### A stream with collections -/

/-- What happens to an engine that receives the operations of others. -/
inductive CollectorEvent where
  | deliver (op : Operation) (context : Option DeleteContext)
  | setDeleteContext (deleteOpId : Identifier) (context : DeleteContext)
  | rejectPending (id : Identifier)
  | collect (frontier : Int) (options : CollectOptions)

/-- The engine, and the nodes that its collections took out so far. -/
structure Collector where
  engine : Engine
  collected : List Identifier

namespace Collector

def init (replicaId : Nat) : Collector := ⟨Engine.new replicaId, []⟩

/-- One event; a collection also writes down which nodes it took out. -/
def step (s : Collector) : CollectorEvent → Except String Collector
  | .deliver op context => do
      let (_, e) ← s.engine.applyRemote op context
      .ok { s with engine := e }
  | .setDeleteContext deleteOpId context =>
      .ok { s with engine := s.engine.setDeleteContext deleteOpId context }
  | .rejectPending id => .ok { s with engine := (s.engine.rejectPending id).2 }
  | .collect frontier options => do
      let (_, e) ← s.engine.collect frontier options
      .ok ⟨e, s.collected ++ (s.engine.nodes.map Node.id).filter fun id => !e.hasIdentifier id⟩

/-- The event is no operation that names a collected node as its parent or target. -/
def spares (s : Collector) : CollectorEvent → Bool
  | .deliver op _ => op.dependency.all fun d => d ∉ s.collected
  | _ => true

end Collector

def CollectorEvent.isCollect : CollectorEvent → Bool
  | collect _ _ => true
  | _ => false

namespace Engine

/-- The collecting engine beside the other one, whose history is known. -/
structure Matched (s full : Collector) : Prop where
  thinned : Thinned s.collected full.engine s.engine
  built : ∃ history, Built full.engine history
  settled : full.engine.Settled
  waiting : ∀ op ∈ full.engine.pending, FreeOf s.collected op

theorem matched_init (replicaId : Nat) :
    Matched (Collector.init replicaId) (Collector.init replicaId) where
  thinned := by
    refine ⟨sound_new replicaId, sound_new replicaId, ?_, ?_, ?_, ?_, rfl, rfl, rfl⟩
    · exact FugueTree.pruned_self _ fun n _ => by simp [Collector.init]
    · exact fun n member => by simp [Collector.init, new] at member
    · exact fun n member => by simp [Collector.init, new] at member
    · exact fun id member => by simp [Collector.init] at member
  built := ⟨[], built_new replicaId⟩
  settled := settled_new replicaId
  waiting op member := by simp [Collector.init, new] at member

namespace Matched

variable {s full : Collector}

theorem deliver (matched : Matched s full) {op : Operation} {context : Option DeleteContext}
    (spared : s.spares (.deliver op context) = true) :
    ∃ s' full', s.step (.deliver op context) = .ok s' ∧
      full.step (.deliver op context) = .ok full' ∧ Matched s' full' := by
  obtain ⟨history, built⟩ := matched.built
  have free : FreeOf s.collected op := fun d named => by
    simpa [Collector.spares, named] using spared
  obtain ⟨buffered, e, e', applied, applied', related, waiting⟩ :=
    matched.thinned.applyRemote free matched.waiting context
  obtain ⟨buffered₁, e₁, later, applied₁, absorbed, settled, -⟩ := built.applyRemote_spec op context
  obtain ⟨rfl, rfl⟩ := Prod.mk.inj (Except.ok.inj (applied₁.symm.trans applied))
  refine ⟨{ s with engine := e' }, { full with engine := e₁ }, ?_, ?_, related,
    ⟨_, absorbed.built⟩, settled matched.settled, waiting⟩
  · rw [Collector.step, applied']
    rfl
  · rw [Collector.step, applied]
    rfl

theorem setDeleteContext (matched : Matched s full) (id : Identifier) (context : DeleteContext) :
    Matched { s with engine := s.engine.setDeleteContext id context }
      { full with engine := full.engine.setDeleteContext id context } := by
  obtain ⟨history, built⟩ := matched.built
  exact ⟨matched.thinned.congr rfl rfl rfl rfl (le_refl _) matched.thinned.clock
    matched.thinned.pending, ⟨history, built.congr rfl rfl (le_refl _)⟩, matched.settled,
    matched.waiting⟩

theorem rejectPending (matched : Matched s full) (id : Identifier) :
    Matched { s with engine := (s.engine.rejectPending id).2 }
      { full with engine := (full.engine.rejectPending id).2 } := by
  obtain ⟨history, built⟩ := matched.built
  have same := matched.thinned.pending
  unfold Engine.rejectPending
  rw [same]
  split_ifs
  · have inside : ∀ op ∈ full.engine.pending.eraseP (fun op => op.id = id),
        op ∈ full.engine.pending := fun op member => List.mem_of_mem_eraseP member
    exact ⟨matched.thinned.congr rfl rfl rfl rfl (le_refl _) matched.thinned.clock rfl,
      ⟨history, built.congr rfl rfl (le_refl _)⟩,
      fun op member => matched.settled op (inside op member),
      fun op member => matched.waiting op (inside op member)⟩
  · exact ⟨matched.thinned, ⟨history, built⟩, matched.settled, matched.waiting⟩

/-- What a collection takes out is what the tree has lost. -/
theorem collected_nodes {e e' : Engine} {gone : List Identifier} (sound : e.Sound)
    (collected : Collected e e' gone) (present : ∀ id ∈ gone, ∃ n ∈ e.tree.nodes, n.id = id)
    (id : Identifier) : id ∈ gone ↔
      id ∈ (e.nodes.map Node.id).filter fun id => !e'.hasIdentifier id := by
  have list : e.nodes = e.tree.nodes := sound.wf.toArray_eq
  have lost : e'.hasIdentifier id = true ↔ ∃ n ∈ e'.tree.nodes, n.id = id :=
    (sound.moves collected.moves).wf.hasIdentifier_iff
  rw [list, List.mem_filter, Bool.not_eq_true', Bool.eq_false_iff, ne_eq, lost,
    collected.nodes sound]
  simp only [List.mem_filter, List.mem_map, decide_eq_true_eq]
  constructor
  · intro member
    exact ⟨present id member, fun ⟨n, ⟨_, kept⟩, same⟩ => kept (same ▸ member)⟩
  · rintro ⟨⟨n, inside, rfl⟩, none⟩
    by_contra kept
    exact none ⟨n, ⟨inside, kept⟩, rfl⟩

/-- No buffered operation waits for a node that is present, so none waits for a collected one. -/
theorem collect (matched : Matched s full) (frontier : Int) (options : CollectOptions) :
    ∃ s', s.step (.collect frontier options) = .ok s' ∧ Matched s' full := by
  have sound := matched.thinned.sound'
  obtain ⟨result, e', gone, collected, spec, candidates, -⟩ := sound.collect_spec frontier options
  have present : ∀ id ∈ gone, ∃ n ∈ s.engine.tree.nodes, n.id = id := fun id member => by
    obtain ⟨n, inside, named, -⟩ := candidates id member
    exact ⟨n, inside, named⟩
  have lost := collected_nodes sound spec present
  set more := (s.engine.nodes.map Node.id).filter fun id => !e'.hasIdentifier id with hmore
  have spec' : Collected s.engine e' more := by
    refine ⟨spec.moves, spec.frame, spec.pruned.congr fun n _ => ?_, fun n member p under dropped =>
      (lost _).mp (spec.closed n member p under ((lost p).mpr dropped))⟩
    rw [decide_eq_decide, lost]
  refine ⟨⟨e', s.collected ++ more⟩, ?_, matched.thinned.collect spec' fun id member => ?_,
    matched.built, matched.settled, fun op member d named dropped => ?_⟩
  · rw [Collector.step, collected]
    rfl
  · obtain ⟨n, inside, named, candidate⟩ := candidates id ((lost id).mpr member)
    exact ⟨n, inside, named, deleted_of_isCandidate candidate⟩
  · rcases List.mem_append.mp dropped with old | new
    · exact matched.waiting op member d named old
    · obtain ⟨n, inside, rfl⟩ := present d ((lost d).mpr new)
      have ready : full.engine.ready op = true := ready_iff_dependency.mpr fun d' named' => by
        obtain rfl : n.id = d' := Option.some.inj (named.symm.trans named')
        exact matched.thinned.sound.wf.hasIdentifier_iff.mpr
          ⟨n, (matched.thinned.mem_nodes.mp inside).1, rfl⟩
      rw [(matched.settled op member).2] at ready
      cases ready

/-- One event. -/
theorem step (matched : Matched s full) {event : CollectorEvent}
    (spared : s.spares event = true) :
    ∃ s' full', s.step event = .ok s' ∧ Matched s' full' ∧
      Run.run Collector.step full ([event].filter fun event => !event.isCollect) = .ok full' := by
  cases event with
  | deliver op context =>
      obtain ⟨s', full', moved, moved', next⟩ := matched.deliver spared
      refine ⟨s', full', moved, next, ?_⟩
      show Run.run Collector.step full [.deliver op context] = .ok full'
      rw [Run.run, moved']
      rfl
  | setDeleteContext id context =>
      exact ⟨_, _, rfl, matched.setDeleteContext id context, rfl⟩
  | rejectPending id => exact ⟨_, _, rfl, matched.rejectPending id, rfl⟩
  | collect frontier options =>
      obtain ⟨s', moved, next⟩ := matched.collect frontier options
      exact ⟨s', full, moved, next, rfl⟩

/-- Both kinds of engine are sound, so no event throws. -/
theorem step_ok (matched : Matched s full) (event : CollectorEvent) :
    ∃ s', s.step event = .ok s' := by
  have sound := matched.thinned.sound'
  cases event with
  | deliver op context =>
      obtain ⟨buffered, e, applied, -⟩ := sound.applyRemote_spec op context
      exact ⟨{ s with engine := e }, by rw [Collector.step, applied]; rfl⟩
  | setDeleteContext id context => exact ⟨_, rfl⟩
  | rejectPending id => exact ⟨_, rfl⟩
  | collect frontier options =>
      obtain ⟨s', moved, -⟩ := matched.collect frontier options
      exact ⟨s', moved⟩

/-- A whole stream. -/
theorem run (matched : Matched s full) {events : List CollectorEvent}
    (spared : Run.Each Collector.step (fun s event => s.spares event = true) s events) :
    ∃ s' full', Run.run Collector.step s events = .ok s' ∧
      Run.run Collector.step full (events.filter fun event => !event.isCollect) = .ok full' ∧
      Matched s' full' := by
  induction events generalizing s full with
  | nil => exact ⟨s, full, rfl, rfl, matched⟩
  | cons event events ih =>
      have first : s.spares event = true := by
        obtain ⟨s₁, moved⟩ := matched.step_ok event
        exact (spared s₁ moved).1
      obtain ⟨s₁, full₁, moved, next, moved'⟩ := matched.step first
      obtain ⟨s', full', ran, ran', last⟩ := ih next (spared s₁ moved).2
      refine ⟨s', full', ?_, ?_, last⟩
      · rw [Run.run, moved]
        exact ran
      · rw [← List.singleton_append, List.filter_append, Run.run_append moved']
        exact ran'

end Matched

end Engine

open Engine

/-- **Garbage collection is transparent.** Two engines receive the same operations, contexts and
rejections; one of them also collects, at any times, with any frontiers and options. While no
delivered operation names a collected node as its parent or target, both have the same text and the
same pending buffer, and the nodes of the one that collects are the surviving nodes of the other, in
the same order and state. -/
theorem collect_transparent (replicaId : Nat) (events : List CollectorEvent)
    (spared : Run.Each Collector.step (fun s event => s.spares event = true)
      (Collector.init replicaId) events) :
    ∃ s full, Run.run Collector.step (Collector.init replicaId) events = .ok s ∧
      Run.run Collector.step (Collector.init replicaId)
        (events.filter fun event => !event.isCollect) = .ok full ∧
      s.engine.text = full.engine.text ∧
      s.engine.nodes = full.engine.nodes.filter (fun n => s.engine.hasIdentifier n.id) ∧
      s.engine.pending = full.engine.pending := by
  obtain ⟨s, full, ran, ran', matched⟩ := (matched_init replicaId).run spared
  exact ⟨s, full, ran, ran', matched.thinned.text_eq, matched.thinned.nodes_eq,
    matched.thinned.pending⟩

/-- Two characters, the first of which is deleted and collected before a third follows. -/
def swept : List CollectorEvent :=
  [.deliver (.insert ⟨⟨1, 1⟩, 97, none, .R, false⟩) none,
    .deliver (.insert ⟨⟨2, 1⟩, 98, none, .R, false⟩) none,
    .deliver (.delete ⟨⟨3, 1⟩, ⟨1, 1⟩⟩) (some ⟨3, 100⟩),
    .collect 3 { nowMs := 400, maxAgeMs := 300, maxOpsPerReplica := 200 },
    .deliver (.insert ⟨⟨4, 2⟩, 99, some ⟨2, 1⟩, .R, false⟩) none]

theorem collect_transparent_swept : ∃ s full,
    Run.run Collector.step (Collector.init 0) swept = .ok s ∧
      Run.run Collector.step (Collector.init 0)
        (swept.filter fun event => !event.isCollect) = .ok full ∧
      s.engine.text = full.engine.text ∧
      s.engine.nodes = full.engine.nodes.filter (fun n => s.engine.hasIdentifier n.id) ∧
      s.engine.pending = full.engine.pending :=
  collect_transparent 0 swept (by decide +kernel)

/-- The collection of this stream does take a node out. -/
example : (Run.ends (Run.run Collector.step (Collector.init 0) swept)
    fun s => s.collected = [⟨1, 1⟩]) = true := by decide +kernel

end ConfluenceEditor
