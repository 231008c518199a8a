/-
Engines whose methods never throw.

`Engine.Sound` is the part of an engine's invariant that does not mention the applied operations:
the tree is well formed, its nodes were applied, and the clock is not behind. It also holds after a
rejected insert was taken out of the tree again. Every method keeps it, and on a sound engine the
only method that throws is an insertion outside the document. `Mints` says which identifiers a local
edit takes and that they are new.
-/

import ConfluenceEditor.Engine.LocalEdit
import ConfluenceEditor.Library.Throwing

namespace ConfluenceEditor

namespace Engine

structure Sound (e : Engine) : Prop where
  wf : e.tree.WF
  known : ∀ n ∈ e.tree.nodes, n.id ∈ e.applied
  clock : ∀ id ∈ e.applied, id.c ≤ e.clock

theorem sound_new (replicaId : Nat) : (new replicaId).Sound where
  wf := FugueTree.wf_empty
  known n member := by simp [new] at member
  clock id member := by simp [new] at member

end Engine

theorem Built.sound {e : Engine} {history : List Operation} (built : Built e history) :
    e.Sound where
  wf := built.wf
  known n member := (built.applied n.id).mpr
    ⟨.insert n.toInsert, built.mem_history_of_node member, rfl⟩
  clock id member := by
    obtain ⟨op, inside, rfl⟩ := (built.applied id).mp member
    exact built.clock op inside

namespace Engine

/-- How many of `count` nodes from a visible index on exist. -/
def deletions (e : Engine) (visibleIndex : Int) (count : Nat) : Nat :=
  if visibleIndex < 0 then 0 else min count (e.tree.visible.length - visibleIndex.toNat)

/-- The engine took these new identifiers, in this order, for operations that it applied. -/
structure Mints (e e' : Engine) (ids : List Identifier) : Prop where
  sound : e'.Sound
  replicaId : e'.replicaId = e.replicaId
  pending : e'.pending = e.pending
  clock : e.clock ≤ e'.clock
  applied : ∀ id, id ∈ e'.applied ↔ id ∈ e.applied ∨ id ∈ ids
  fresh : ∀ id ∈ ids, id.r = e.replicaId ∧ e.clock < id.c
  nodup : ids.Nodup

namespace Sound

variable {e e' : Engine}

theorem congr (sound : e.Sound) (tree : e'.tree = e.tree) (applied : e'.applied = e.applied)
    (clock : e.clock ≤ e'.clock) : e'.Sound where
  wf := tree ▸ sound.wf
  known := by
    rw [tree, applied]
    exact sound.known
  clock id member := le_trans (sound.clock id (applied ▸ member)) clock

theorem mints_nil (sound : e.Sound) (undoStack redoStack : List UndoStackEntry) :
    Mints e { e with undoStack, redoStack } [] where
  sound := sound.congr rfl rfl (le_refl _)
  replicaId := rfl
  pending := rfl
  clock := le_refl _
  applied id := by simp
  fresh id member := by cases member
  nodup := List.nodup_nil

end Sound

theorem Mints.trans {e e₁ e₂ : Engine} {ids ids' : List Identifier} (first : Mints e e₁ ids)
    (second : Mints e₁ e₂ ids') : Mints e e₂ (ids ++ ids') where
  sound := second.sound
  replicaId := second.replicaId.trans first.replicaId
  pending := second.pending.trans first.pending
  clock := le_trans first.clock second.clock
  applied id := by rw [second.applied, first.applied, List.mem_append, or_assoc]
  fresh id member := by
    rcases List.mem_append.mp member with early | late
    · exact first.fresh id early
    · obtain ⟨own, above⟩ := second.fresh id late
      exact ⟨own.trans first.replicaId, lt_of_le_of_lt first.clock above⟩
  nodup := by
    rw [List.nodup_append]
    refine ⟨first.nodup, second.nodup, ?_⟩
    rintro id early id' late rfl
    -- the first identifiers are behind the clock when the second ones are taken
    have behind := first.sound.clock id ((first.applied id).mpr (Or.inr early))
    have ahead := (second.fresh id late).2
    omega

namespace Sound

variable {e e' : Engine}

/-! ### Applying one operation -/

/-- What the application of a fresh, ready operation leaves: the tree is rewritten, and the visible
part of the node list is changed as the kind says. -/
structure Applied (e e' : Engine) (op : Operation) : Prop where
  sound : (e'.markApplied op.id).Sound
  replicaId : e'.replicaId = e.replicaId
  clock : e'.clock = e.clock
  pending : e'.pending = e.pending
  undoStack : e'.undoStack = e.undoStack
  redoStack : e'.redoStack = e.redoStack
  applied : e'.applied = e.applied

/-- A rewritten tree whose nodes are old ones or the new insert. -/
theorem applied_of_tree (sound : e.Sound) (op : Operation) (counter : op.id.c ≤ e.clock)
    {tree : FugueTree} (wf : tree.WF)
    (nodes : ∀ n ∈ tree.nodes, n.id = op.id ∨ ∃ m ∈ e.tree.nodes, m.id = n.id)
    (contexts : Identifier → Option DeleteContext) :
    Applied e { e with tree, deleteContext := contexts } op where
  sound :=
    { wf
      known := fun n member => by
        rcases nodes n member with same | ⟨m, old, same⟩
        · exact same ▸ List.mem_cons_self
        · exact List.mem_cons_of_mem _ (same ▸ sound.known m old)
      clock := fun id member => by
        rcases List.mem_cons.mp member with rfl | old
        · exact counter
        · exact sound.clock id old }
  replicaId := rfl
  clock := rfl
  pending := rfl
  undoStack := rfl
  redoStack := rfl
  applied := rfl

theorem fresh_node (sound : e.Sound) {id : Identifier} (fresh : id ∉ e.applied) :
    e.tree.hasIdentifier id = false := by
  rw [Bool.eq_false_iff]
  intro present
  obtain ⟨n, member, rfl⟩ := sound.wf.hasIdentifier_iff.mp present
  exact fresh (sound.known n member)

theorem exists_target (sound : e.Sound) {target : Identifier}
    (present : e.tree.hasIdentifier target = true) :
    ∃ n, e.tree.nodeByIdentifier target = some n := by
  obtain ⟨n, member, named⟩ := sound.wf.hasIdentifier_iff.mp present
  exact ⟨n, sound.wf.nodeByIdentifier_eq_some_iff.mpr ⟨member, named⟩⟩

/-- Setting the flags of a present node. -/
theorem setDeleted_applied (sound : e.Sound) (op : Operation) (counter : op.id.c ≤ e.clock)
    {target : Identifier} (present : e.tree.hasIdentifier target = true) (deleted : Bool)
    (deletedBy : Option Identifier) :
    ∃ tree, e.tree.setDeleted target deleted deletedBy = .ok tree ∧
      tree.nodes = e.tree.nodes.map (FugueTree.flag target deleted deletedBy) ∧
      ∀ contexts, Applied e { e with tree, deleteContext := contexts } op := by
  obtain ⟨tree, set, wf, -, list⟩ := sound.wf.setDeleted_spec deleted deletedBy present
  refine ⟨tree, set, list, sound.applied_of_tree op counter wf fun n member => Or.inr ?_⟩
  rw [list] at member
  obtain ⟨m, old, rfl⟩ := List.mem_map.mp member
  exact ⟨m, old, (FugueTree.flag_id ..).symm⟩

/-- A delete sets the fields of its target. -/
theorem applyDelete_eq {op : DeleteOperation} {n : Node} {tree : FugueTree}
    (found : e.tree.nodeByIdentifier op.target = some n)
    (set : e.tree.setDeleted op.target true (some (laterDelete op.id n.deletedBy)) = .ok tree) :
    e.applyDelete op = .ok { e with tree } := by
  rw [applyDelete, found]
  change (do let tree ← e.tree.setDeleted op.target true (some (laterDelete op.id n.deletedBy))
             .ok { e with tree }) = _
  rw [set]
  rfl

/-- An undelete of the replica that the deletion is attributed to. -/
theorem applyUndelete_eq_own {op : UndeleteOperation} {n : Node} {d : Identifier}
    {tree : FugueTree} (found : e.tree.nodeByIdentifier op.target = some n)
    (dot : n.deletedBy = some d) (own : d.r = op.id.r)
    (set : e.tree.setDeleted op.target false none = .ok tree) :
    e.applyUndelete op = .ok
      { e with tree, deleteContext := Function.update e.deleteContext d none } := by
  rw [applyUndelete, found]
  simp only [dot, if_pos own]
  rw [set]
  rfl

/-- Any other undelete changes nothing. -/
theorem applyUndelete_eq_spared {op : UndeleteOperation} {n : Node}
    (found : e.tree.nodeByIdentifier op.target = some n)
    (other : ∀ d, n.deletedBy = some d → d.r ≠ op.id.r) : e.applyUndelete op = .ok e := by
  rw [applyUndelete, found]
  cases dot : n.deletedBy with
  | none => simp only [dot]
  | some d => simp only [dot, if_neg (other d dot)]

/-- Applying a fresh, ready operation succeeds. -/
theorem applyKind_spec (sound : e.Sound) (op : Operation) (fresh : op.id ∉ e.applied)
    (ready : e.ready op = true) (counter : op.id.c ≤ e.clock) :
    ∃ e', e.applyKind op = .ok e' ∧ Applied e e' op := by
  cases op with
  | insert op =>
      obtain ⟨tree, attached, wf, -, before, after, old, new⟩ := sound.wf.attach_spec op
        (fun p named => by simpa [Engine.ready, isOriginPresent, named] using ready)
        (sound.fresh_node fresh)
      refine ⟨{ e with tree }, by rw [applyKind, applyInsert, attached]; rfl,
        sound.applied_of_tree (.insert op) counter wf (fun n member => ?_) e.deleteContext⟩
      rw [new] at member
      rw [old]
      rcases List.mem_append.mp member with inside | inside
      · exact Or.inr ⟨n, List.mem_append_left _ inside, rfl⟩
      · rcases List.mem_cons.mp inside with rfl | inside
        · exact Or.inl rfl
        · exact Or.inr ⟨n, List.mem_append_right _ inside, rfl⟩
  | delete op =>
      obtain ⟨n, found⟩ := sound.exists_target ready
      obtain ⟨tree, set, -, applied⟩ := sound.setDeleted_applied (.delete op) counter ready true
        (some (laterDelete op.id n.deletedBy))
      exact ⟨{ e with tree }, applyDelete_eq found set, applied e.deleteContext⟩
  | undelete op =>
      obtain ⟨n, found⟩ := sound.exists_target ready
      by_cases own : ∃ d, n.deletedBy = some d ∧ d.r = op.id.r
      · obtain ⟨d, dot, own⟩ := own
        obtain ⟨tree, set, -, applied⟩ :=
          sound.setDeleted_applied (.undelete op) counter ready false none
        exact ⟨_, applyUndelete_eq_own found dot own set, applied _⟩
      · refine ⟨e, applyUndelete_eq_spared found fun d dot same => own ⟨d, dot, same⟩, ?_⟩
        exact sound.applied_of_tree (.undelete op) counter sound.wf
          (fun n member => Or.inr ⟨n, member, rfl⟩) e.deleteContext

/-! ### Local edits -/

/-- The identifier that is minted next is new. -/
theorem mint_fresh (sound : e.Sound) : e.mint.1 ∉ e.applied := fun known => by
  exact absurd (sound.clock _ known) (Nat.not_succ_le_self _)

/-- Minting an identifier for a ready operation and applying it. -/
theorem mint_spec (sound : e.Sound) (op : Operation) (id : op.id = e.mint.1)
    (ready : e.ready op = true) :
    ∃ e', e.mint.2.applyKind op = .ok e' ∧ Applied e.mint.2 e' op ∧
      ∀ undoStack redoStack,
        Mints e { e'.markApplied op.id with undoStack, redoStack } [op.id] := by
  have sound' : e.mint.2.Sound := sound.congr rfl rfl (Nat.le_succ _)
  have counter : op.id.c ≤ e.mint.2.clock := by
    rw [id]
    exact le_refl _
  have fresh : op.id ∉ e.mint.2.applied := by
    rw [id]
    exact sound.mint_fresh
  obtain ⟨e', applied, spec⟩ := sound'.applyKind_spec op fresh ready counter
  refine ⟨e', applied, spec, fun undoStack redoStack => ⟨spec.sound.congr rfl rfl (le_refl _),
    spec.replicaId, spec.pending, ?_, fun i => ?_, fun i member => ?_, List.nodup_singleton _⟩⟩
  · exact le_trans (Nat.le_succ _) (le_of_eq spec.clock.symm)
  · change i ∈ op.id :: e'.applied ↔ _
    rw [spec.applied, List.mem_cons, List.mem_singleton]
    exact or_comm
  · rw [List.mem_singleton.mp member, id]
    exact ⟨rfl, Nat.lt_succ_self _⟩

/-- An insertion within the document takes the free position after its left origin. -/
theorem localInsert_at (sound : e.Sound) (k : Nat) (inside : k ≤ e.tree.visible.length)
    (value : Nat) (bind : Bool) :
    ∃ op e' before after, e.localInsert k value bind = .ok (op, e') ∧ Mints e e' [op.id] ∧
      op.value = value ∧ e.tree.Position op.parent op.side before after ∧
      e'.tree.nodes = before ++ op.toNode :: after ∧ e.tree.EndsAtOrigin before k := by
  obtain ⟨parent, side, before, after, decided, position, origin⟩ :=
    sound.wf.decidePlacement_spec k inside
  set op : InsertOperation := ⟨e.mint.1, value, parent, side, bind⟩ with hop
  have ready : e.ready (.insert op) = true := by
    cases named : parent with
    | none => simp [Engine.ready, isOriginPresent, hop, named]
    | some p => simpa [Engine.ready, isOriginPresent, hop, named] using position.ready p named
  obtain ⟨e₁, applied, spec, minted⟩ := sound.mint_spec (.insert op) rfl ready
  obtain ⟨tree, attached, -, -, list⟩ := position.attach op rfl rfl
    (sound.fresh_node sound.mint_fresh)
  have applied' : e.mint.2.applyInsert op = .ok e₁ := applied
  have sameTree : e₁.tree = tree := by
    rw [applyInsert] at applied'
    change (do let tree ← e.tree.attach op.id op.value op.bind op.parent op.side
               Except.ok { e.mint.2 with tree }) = .ok e₁ at applied'
    rw [attached] at applied'
    exact (congrArg Engine.tree (Except.ok.inj applied')).symm
  refine ⟨op, _, before, after, ?_, minted (⟨.insert op, true⟩ :: e.undoStack) [], rfl, position,
    by rw [← list, ← sameTree]; rfl, origin⟩
  have undoStack : e₁.undoStack = e.undoStack := spec.undoStack
  rw [localInsert, decided]
  change (do let e₂ ← e.mint.2.applyInsert op
             Except.ok (op, { e₂.markApplied op.id with
               undoStack := ⟨.insert op, true⟩ :: (e₂.markApplied op.id).undoStack
               redoStack := [] })) = _
  rw [applied', ← undoStack]
  rfl

theorem localInsert_spec (sound : e.Sound) (k : Nat) (inside : k ≤ e.tree.visible.length)
    (value : Nat) (bind : Bool) :
    ∃ op e', e.localInsert k value bind = .ok (op, e') ∧ Mints e e' [op.id] ∧
      e'.tree.visible.length = e.tree.visible.length + 1 := by
  obtain ⟨op, e', before, after, inserted, minted, -, position, list, -⟩ :=
    sound.localInsert_at k inside value bind
  refine ⟨op, e', inserted, minted, ?_⟩
  rw [FugueTree.visible, FugueTree.visible, list, position.split]
  simp [InsertOperation.toNode]
  omega

/-- An insertion outside the document throws before it changes anything. -/
theorem localInsert_error (sound : e.Sound) (visibleIndex : Int)
    (outside : visibleIndex < 0 ∨ (e.tree.visible.length : Int) < visibleIndex) (value : Nat)
    (bind : Bool) : ∃ message, e.localInsert visibleIndex value bind = .error message := by
  obtain ⟨message, threw⟩ := sound.wf.decidePlacement_outside outside
  refine ⟨message, ?_⟩
  rw [localInsert, threw]
  rfl

/-- Tombstoning the node at a visible index takes it out of the visible list. -/
theorem visible_flag (sound : e.Sound) {k : Nat} {target : Node} {tree : FugueTree}
    (at? : e.tree.visible[k]? = some target) (deletedBy : Option Identifier)
    (list : tree.nodes = e.tree.nodes.map (FugueTree.flag target.id true deletedBy)) :
    tree.visible = e.tree.visible.eraseIdx k := by
  have visible := List.mem_filter.mp (List.mem_of_getElem? at?)
  obtain ⟨before, after, split⟩ := List.append_of_mem visible.1
  have nodup := sound.wf.nodup
  have distinct : e.tree.visible.Nodup := sound.wf.nodup.of_map.filter _
  rw [split, List.map_append, List.map_cons, List.nodup_middle, List.nodup_cons,
    List.mem_append, not_or] at nodup
  have others : ∀ m : Node, m ∈ before ∨ m ∈ after →
      FugueTree.flag target.id true deletedBy m = m := by
    intro m member
    refine if_neg fun same => ?_
    rcases member with inside | inside
    · exact nodup.1.1 (same ▸ List.mem_map_of_mem inside)
    · exact nodup.1.2 (same ▸ List.mem_map_of_mem inside)
  have shown : target.deleted = false := by simpa using visible.2
  have old : e.tree.visible = (before.filter fun n => !n.deleted) ++
      target :: after.filter fun n => !n.deleted := by
    rw [FugueTree.visible, split, List.filter_append, List.filter_cons_of_pos (by simp [shown])]
  have new : tree.visible = (before.filter fun n => !n.deleted) ++
      after.filter fun n => !n.deleted := by
    rw [FugueTree.visible, list, split, List.map_append, List.map_cons,
      List.map_congr_left fun m member => others m (Or.inl member),
      List.map_congr_left fun m member => others m (Or.inr member), List.map_id', List.map_id',
      List.filter_append, List.filter_cons_of_neg (by simp [FugueTree.flag])]
  -- the target is in one place, so the index is that of the split
  have here : (before.filter fun n => !n.deleted).length = k := by
    rw [old] at at? distinct
    refine (List.getElem?_inj (by simp) distinct).mp ?_
    rw [at?, List.getElem?_append_right (le_refl _), Nat.sub_self]
    rfl
  rw [new, old, ← here, List.eraseIdx_append_of_length_le (le_refl _), Nat.sub_self]
  rfl

/-- What `count` deletions at the visible index `k` do: the nodes from there on go, in order, the
stamps are consecutive, and the node order stays. -/
structure Deleted (e e' : Engine) (k count : Nat) (ops : List DeleteOperation) : Prop where
  targets : ops.map DeleteOperation.target = ((e.tree.visible.drop k).take count).map Node.id
  visible : e'.tree.visible = e.tree.visible.take k ++ e.tree.visible.drop (k + count)
  ids : ops.map DeleteOperation.id =
    (List.range ops.length).map fun j => ⟨e.clock + (j + 1), e.replicaId⟩
  clock : e'.clock = e.clock + ops.length
  nodes : e'.tree.nodes.map Node.toInsert = e.tree.nodes.map Node.toInsert

theorem Deleted.length {e e' : Engine} {k count : Nat} {ops : List DeleteOperation}
    (deleted : Deleted e e' k count ops) : ops.length = min count (e.tree.visible.length - k) := by
  have same := congrArg List.length deleted.targets
  rwa [List.length_map, List.length_map, List.length_take, List.length_drop] at same

theorem deleted_nil (e : Engine) {k count : Nat} (nothing : count = 0 ∨ e.tree.visible.length ≤ k) :
    Deleted e e k count [] where
  targets := by
    rcases nothing with rfl | beyond
    · simp
    · rw [List.drop_eq_nil_of_le beyond, List.take_nil]
      rfl
  visible := by
    rcases nothing with rfl | beyond
    · simp
    · rw [List.take_of_length_le beyond, List.drop_eq_nil_of_le (by omega), List.append_nil]
  ids := rfl
  clock := rfl
  nodes := rfl

/-- One deletion, and then the others. -/
theorem Deleted.cons {e e₁ e' : Engine} {k count : Nat} {target : Node}
    {op : DeleteOperation} {ops : List DeleteOperation} (tail : Deleted e₁ e' k count ops)
    (at? : e.tree.visible[k]? = some target) (named : op.target = target.id)
    (id : op.id = ⟨e.clock + 1, e.replicaId⟩) (replicaId : e₁.replicaId = e.replicaId)
    (clock : e₁.clock = e.clock + 1) (visible : e₁.tree.visible = e.tree.visible.eraseIdx k)
    (nodes : e₁.tree.nodes.map Node.toInsert = e.tree.nodes.map Node.toInsert) :
    Deleted e e' k (count + 1) (op :: ops) := by
  obtain ⟨bound, here⟩ := List.getElem?_eq_some_iff.mp at?
  have shown : e.tree.visible.drop k = target :: e.tree.visible.drop (k + 1) := by
    rw [List.drop_eq_getElem_cons bound, here]
  have erased : e₁.tree.visible = e.tree.visible.take k ++ e.tree.visible.drop (k + 1) :=
    visible.trans (List.eraseIdx_eq_take_drop_succ _ _)
  have short : (e.tree.visible.take k).length = k := List.length_take_of_le (le_of_lt bound)
  refine ⟨?_, ?_, ?_, ?_, tail.nodes.trans nodes⟩
  · rw [List.map_cons, tail.targets, named, shown, List.take_succ_cons, List.map_cons, erased,
      List.drop_append_of_le_length (le_of_eq short.symm), List.drop_of_length_le (le_of_eq short),
      List.nil_append]
  · rw [tail.visible, erased, List.take_append_of_le_length (le_of_eq short.symm),
      List.take_of_length_le (le_of_eq short), List.drop_append,
      List.drop_of_length_le (by rw [short]; exact Nat.le_add_right _ _), List.nil_append, short,
      List.drop_drop]
    congr 2
    omega
  · rw [List.map_cons, tail.ids, List.length_cons, List.range_succ_eq_map, List.map_cons, id,
      List.map_map]
    refine congrArg _ (List.map_congr_left fun j _ => ?_)
    simp only [Function.comp_apply, clock, replicaId]
    congr 1
    omega
  · rw [tail.clock, clock, List.length_cons]
    omega

/-- The loop deletes the nodes from the index on, as many as there are. -/
theorem localDeleteLoop_spec (k : Nat) (count : Nat) {e : Engine} (sound : e.Sound) :
    ∃ ops e', localDeleteLoop k count e = .ok (ops, e') ∧
      Mints e e' (ops.map DeleteOperation.id) ∧ Deleted e e' k count ops := by
  induction count generalizing e with
  | zero =>
      exact ⟨[], e, rfl, sound.mints_nil e.undoStack e.redoStack, deleted_nil e (Or.inl rfl)⟩
  | succ count ih =>
      cases at? : e.tree.visible[k]? with
      | none =>
          refine ⟨[], e, ?_, sound.mints_nil e.undoStack e.redoStack,
            deleted_nil e (Or.inr (List.getElem?_eq_none_iff.mp at?))⟩
          rw [localDeleteLoop, sound.wf.nodeAtVisible_eq, if_neg (by omega), Int.toNat_natCast,
            at?]
          rfl
      | some target =>
          have visible := List.mem_filter.mp (List.mem_of_getElem? at?)
          have present : e.tree.hasIdentifier target.id = true :=
            sound.wf.hasIdentifier_iff.mpr ⟨target, visible.1, rfl⟩
          set op : DeleteOperation := ⟨e.mint.1, target.id⟩ with hop
          obtain ⟨e₁, applied, -, minted⟩ := sound.mint_spec (.delete op) rfl present
          have applied' : e.mint.2.applyDelete op = .ok e₁ := applied
          have found : e.mint.2.tree.nodeByIdentifier op.target = some target :=
            sound.wf.nodeByIdentifier_eq_some_iff.mpr ⟨visible.1, rfl⟩
          obtain ⟨tree, set, -, -, list⟩ := sound.wf.setDeleted_spec true
            (some (laterDelete op.id target.deletedBy)) present
          obtain rfl := Except.ok.inj ((applyDelete_eq found set).symm.trans applied')
          set e₁ : Engine := { e.mint.2 with tree }
          set e₂ : Engine := { e₁.markApplied op.id with
            undoStack := ⟨.delete op, true⟩ :: (e₁.markApplied op.id).undoStack }
          have head : Mints e e₂ [op.id] := minted _ _
          obtain ⟨ops, e', looped, tail, deleted⟩ := ih head.sound
          refine ⟨op :: ops, e', ?_, head.trans tail,
            deleted.cons at? rfl rfl rfl rfl (sound.visible_flag at? _ list) ?_⟩
          · rw [localDeleteLoop, sound.wf.nodeAtVisible_eq, if_neg (by omega), Int.toNat_natCast,
              at?]
            show Except.bind (e.mint.2.applyDelete op) _ = _
            rw [applied']
            show Except.bind (localDeleteLoop k count e₂) _ = _
            rw [looped]
            rfl
          · change tree.nodes.map Node.toInsert = _
            rw [list, List.map_map]
            exact List.map_congr_left fun n _ => FugueTree.flag_toInsert ..

/-- Before the start of the document there is nothing to delete. -/
theorem localDeleteLoop_negative (sound : e.Sound) {visibleIndex : Int}
    (negative : visibleIndex < 0) (count : Nat) :
    localDeleteLoop visibleIndex count e = .ok ([], e) := by
  cases count with
  | zero => rfl
  | succ count =>
      rw [localDeleteLoop, sound.wf.nodeAtVisible_eq, if_pos negative]
      rfl

theorem localDelete_at (sound : e.Sound) (k count : Nat) :
    ∃ ops e', e.localDelete k count = .ok (ops, e') ∧
      Mints e e' (ops.map DeleteOperation.id) ∧ Deleted e e' k count ops := by
  have sound' : Sound { e with redoStack := [] } := sound.congr rfl rfl (le_refl _)
  obtain ⟨ops, e', looped, minted, deleted⟩ := localDeleteLoop_spec k count sound'
  exact ⟨ops, e', looped, ⟨minted.sound, minted.replicaId, minted.pending, minted.clock,
    minted.applied, minted.fresh, minted.nodup⟩, deleted.targets, deleted.visible, deleted.ids,
    deleted.clock, deleted.nodes⟩

theorem localDelete_spec (sound : e.Sound) (visibleIndex : Int) (count : Nat) :
    ∃ ops e', e.localDelete visibleIndex count = .ok (ops, e') ∧
      Mints e e' (ops.map DeleteOperation.id) ∧ ops.length = deletions e visibleIndex count := by
  have sound' : Sound { e with redoStack := [] } := sound.congr rfl rfl (le_refl _)
  by_cases negative : visibleIndex < 0
  · exact ⟨[], _, sound'.localDeleteLoop_negative negative count, sound.mints_nil e.undoStack [],
      (if_pos negative).symm⟩
  · obtain ⟨k, rfl⟩ := Int.eq_ofNat_of_zero_le (not_lt.mp negative)
    obtain ⟨ops, e', deleted, minted, spec⟩ := sound.localDelete_at k count
    refine ⟨ops, e', deleted, minted, spec.length.trans ?_⟩
    rw [deletions, if_neg negative, Int.toNat_natCast]

/-! ### Undo and redo -/

/-- A step takes one identifier for its reversal, or none. -/
theorem stepUndoRedo_spec (sound : e.Sound) {popFrom pushTo popFrom' pushTo' :
    List UndoStackEntry} {outcome : UndoOutcome}
    (stepped : e.stepUndoRedo popFrom pushTo = .ok (outcome, e', popFrom', pushTo')) :
    ∀ undoStack redoStack, Mints e { e' with undoStack, redoStack }
      ((Built.operations outcome).map Operation.id) := by
  cases Built.reversed_of_step stepped with
  | idle quiet =>
      rw [quiet]
      exact sound.mints_nil
  | applied effect stack present chosen applied =>
      rename_i entry kind e₁
      obtain ⟨e₂, applied', -, minted⟩ := sound.mint_spec
        (inverseOperation e.mint.1 entry.op.target kind) (Built.inverseOperation_id ..)
        (by cases kind <;> exact present)
      obtain rfl := Except.ok.inj (applied'.symm.trans applied)
      exact minted

theorem undo_spec (sound : e.Sound) {outcome : UndoOutcome} (undone : e.undo = .ok (outcome, e')) :
    Mints e e' ((Built.operations outcome).map Operation.id) := by
  obtain ⟨⟨outcome₁, e₁, popped, pushed⟩, stepped, done⟩ := Throwing.ok_of_bind undone
  obtain ⟨rfl, rfl⟩ := Prod.mk.inj (Except.ok.inj done)
  exact sound.stepUndoRedo_spec stepped _ _

theorem redo_spec (sound : e.Sound) {outcome : UndoOutcome} (redone : e.redo = .ok (outcome, e')) :
    Mints e e' ((Built.operations outcome).map Operation.id) := by
  obtain ⟨⟨outcome₁, e₁, popped, pushed⟩, stepped, done⟩ := Throwing.ok_of_bind redone
  obtain ⟨rfl, rfl⟩ := Prod.mk.inj (Except.ok.inj done)
  exact sound.stepUndoRedo_spec stepped _ _

/-! ### Remote operations -/

end Sound

/-- What an engine that received operations keeps. -/
structure Advanced (e e' : Engine) : Prop where
  sound : e'.Sound
  replicaId : e'.replicaId = e.replicaId
  clock : e.clock ≤ e'.clock
  applied : ∀ id ∈ e.applied, id ∈ e'.applied

theorem Advanced.trans {e e₁ e₂ : Engine} (first : Advanced e e₁) (second : Advanced e₁ e₂) :
    Advanced e e₂ where
  sound := second.sound
  replicaId := second.replicaId.trans first.replicaId
  clock := le_trans first.clock second.clock
  applied id known := second.applied id (first.applied id known)

theorem Mints.advanced {e e' : Engine} {ids : List Identifier} (mints : Mints e e' ids) :
    Advanced e e' :=
  ⟨mints.sound, mints.replicaId, mints.clock, fun id known => (mints.applied id).mpr (Or.inl known)⟩

namespace Sound

variable {e : Engine}

/-- Neither the buffer nor the contexts matter. -/
theorem advanced (sound : e.Sound) (pending : List Operation)
    (contexts : Identifier → Option DeleteContext) :
    Advanced e { e with pending, deleteContext := contexts } :=
  ⟨sound.congr rfl rfl (le_refl _), rfl, le_refl _, fun _ known => known⟩

theorem doApply_spec (sound : e.Sound) {op : Operation} (fresh : op.id ∉ e.applied)
    (ready : e.ready op = true) :
    ∃ e', e.doApply op = .ok e' ∧ Advanced e e' ∧ op.id ∈ e'.applied := by
  obtain ⟨counters, noted⟩ := noteCounter_eq (e.observe op.id.c) op.id
  have sound' : ((e.observe op.id.c).noteCounter op.id).Sound := by
    rw [noted]
    exact sound.congr rfl rfl (le_max_left ..)
  obtain ⟨e', applied, spec⟩ := sound'.applyKind_spec op (by rw [noted]; exact fresh)
    (by rw [noted]; exact ready) (by rw [noted]; exact le_max_right ..)
  refine ⟨e'.markApplied op.id, by rw [doApply, applied]; rfl, ⟨spec.sound, ?_, ?_, ?_⟩,
    List.mem_cons_self⟩
  · exact spec.replicaId.trans (by rw [noted]; rfl)
  · refine le_trans ?_ (le_of_eq spec.clock.symm)
    rw [noted]
    exact le_max_left ..
  · intro id known
    refine List.mem_cons_of_mem _ ?_
    rw [spec.applied, noted]
    exact known

theorem drainPass_spec (sound : e.Sound) (offered : List Operation) :
    ∃ e' kept progressed, e.drainPass offered = .ok (e', kept, progressed) ∧ Advanced e e' := by
  induction offered with
  | nil => exact ⟨e, [], false, rfl, sound.advanced e.pending e.deleteContext⟩
  | cons op offered ih =>
      obtain ⟨e₁, kept, progressed, swept, advanced⟩ := ih
      by_cases known : e₁.hasApplied op.id = true
      · exact ⟨e₁, kept, true, by simp [drainPass, swept, known, bind, Except.bind], advanced⟩
      · by_cases ready : e₁.ready op = true
        · have fresh : op.id ∉ e₁.applied := fun member => known (decide_eq_true member)
          obtain ⟨e₂, done, next, -⟩ := advanced.sound.doApply_spec fresh ready
          exact ⟨e₂, kept, true, by simp [drainPass, swept, known, ready, done, bind, Except.bind],
            advanced.trans next⟩
        · exact ⟨e₁, op :: kept, progressed,
            by simp [drainPass, swept, known, ready, bind, Except.bind], advanced⟩

theorem drainLoop_spec (sweeps : Nat) {e : Engine} (sound : e.Sound) :
    ∃ e', drainLoop sweeps e = .ok e' ∧ Advanced e e' := by
  induction sweeps generalizing e with
  | zero => exact ⟨e, rfl, sound.advanced e.pending e.deleteContext⟩
  | succ sweeps ih =>
      obtain ⟨e₁, kept, progressed, swept, advanced⟩ := sound.drainPass_spec e.pending
      have trimmed := advanced.trans (advanced.sound.advanced kept e₁.deleteContext)
      cases progressed with
      | false => exact ⟨_, by simp [drainLoop, swept, bind, Except.bind], trimmed⟩
      | true =>
          obtain ⟨e₂, looped, rest⟩ := ih trimmed.sound
          exact ⟨e₂, by simp [drainLoop, swept, looped, bind, Except.bind], trimmed.trans rest⟩

/-- A remote operation never makes the engine throw; when it is not buffered, it is applied. -/
theorem applyRemote_spec (sound : e.Sound) (op : Operation) (context : Option DeleteContext) :
    ∃ buffered e', e.applyRemote op context = .ok (buffered, e') ∧ Advanced e e' ∧
      (buffered = false → op.id ∈ e'.applied) := by
  obtain ⟨contexts, recorded⟩ := Built.recordContext_eq e op context
  set e₀ : Engine := { e with deleteContext := contexts }
  have start : Advanced e e₀ := sound.advanced e.pending contexts
  rw [applyRemote, recorded]
  by_cases known : e₀.hasApplied op.id = true
  · exact ⟨false, e₀, if_pos known, start, fun _ => of_decide_eq_true known⟩
  · by_cases ready : e₀.ready op = true
    · have fresh : op.id ∉ e₀.applied := fun member => known (decide_eq_true member)
      obtain ⟨e₁, done, first, here⟩ := start.sound.doApply_spec fresh ready
      obtain ⟨e₂, drained, second⟩ := drainLoop_spec (e₁.pending.length + 1) first.sound
      refine ⟨false, e₂, ?_, start.trans (first.trans second), fun _ => second.applied _ here⟩
      have drained' : e₁.drain = .ok e₂ := drained
      simp [known, ready, done, drained', bind, Except.bind]
    · refine ⟨true, { e₀ with pending := e₀.pending ++ [op] }, by simp [known, ready], ?_, by rintro ⟨⟩⟩
      exact start.trans (start.sound.advanced _ e₀.deleteContext)

end Sound

/-! ### Any local edit -/

/-- What a user can do to the document. -/
inductive LocalEdit where
  | insert (visibleIndex : Int) (value : Nat) (bind : Bool)
  | delete (visibleIndex : Int) (count : Nat)
  | undo
  | redo
  deriving DecidableEq, Repr

/-- Perform an edit; the operations that it minted. -/
def edit (e : Engine) : LocalEdit → Except String (List Operation × Engine)
  | .insert visibleIndex value bind => do
      let (op, e) ← e.localInsert visibleIndex value bind
      .ok ([.insert op], e)
  | .delete visibleIndex count => do
      let (ops, e) ← e.localDelete visibleIndex count
      .ok (ops.map .delete, e)
  | .undo => do
      let (outcome, e) ← e.undo
      .ok (Built.operations outcome, e)
  | .redo => do
      let (outcome, e) ← e.redo
      .ok (Built.operations outcome, e)

/-- An edit mints the identifiers of its operations. -/
theorem Sound.edit_spec {e e' : Engine} {ops : List Operation} {call : LocalEdit} (sound : e.Sound)
    (edited : e.edit call = .ok (ops, e')) : Mints e e' (ops.map Operation.id) := by
  cases call with
  | insert visibleIndex value bind =>
      obtain ⟨⟨op, e₁⟩, inserted, done⟩ := Throwing.ok_of_bind edited
      obtain ⟨rfl, rfl⟩ := Prod.mk.inj (Except.ok.inj done)
      obtain ⟨k, rfl, inside⟩ := Built.localInsert_inside sound.wf inserted
      obtain ⟨op', e', inserted', minted, -⟩ := sound.localInsert_spec k inside value bind
      obtain ⟨rfl, rfl⟩ := Prod.mk.inj (Except.ok.inj (inserted'.symm.trans inserted))
      exact minted
  | delete visibleIndex count =>
      obtain ⟨⟨ops', e₁⟩, deleted, done⟩ := Throwing.ok_of_bind edited
      obtain ⟨rfl, rfl⟩ := Prod.mk.inj (Except.ok.inj done)
      obtain ⟨ops, e', deleted', minted, -⟩ := sound.localDelete_spec visibleIndex count
      obtain ⟨rfl, rfl⟩ := Prod.mk.inj (Except.ok.inj (deleted'.symm.trans deleted))
      have same : Operation.id ∘ Operation.delete = DeleteOperation.id := rfl
      rw [List.map_map, same]
      exact minted
  | undo =>
      obtain ⟨⟨outcome, e₁⟩, undone, done⟩ := Throwing.ok_of_bind edited
      obtain ⟨rfl, rfl⟩ := Prod.mk.inj (Except.ok.inj done)
      exact sound.undo_spec undone
  | redo =>
      obtain ⟨⟨outcome, e₁⟩, redone, done⟩ := Throwing.ok_of_bind edited
      obtain ⟨rfl, rfl⟩ := Prod.mk.inj (Except.ok.inj done)
      exact sound.redo_spec redone

end Engine

end ConfluenceEditor
