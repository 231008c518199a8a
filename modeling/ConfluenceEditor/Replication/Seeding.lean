/-
Seeding an engine with the nodes of a snapshot, and the order of tied siblings.

The nodes are fed in document order. Nodes that right links reach from the root are applied when they
are fed; everything in the left row of such a node waits in the buffer until the node itself comes,
and is then applied from the end of the buffer. So tied siblings keep their order if they are of the
first kind and change places if they are of the second: seeding reproduces the node list exactly when
no tied siblings hang to the left (`seed_reproduces`).
-/

import ConfluenceEditor.Engine.DrainOrder
import ConfluenceEditor.Library.Spine
import ConfluenceEditor.Replication.Rebuild

namespace ConfluenceEditor

open SidedForest SidedForest.Forest Engine

/-- The insert that a node is fed as. -/
def Node.seed (n : Node) : Operation := .insert n.toInsert

@[simp] theorem Node.seed_id (n : Node) : n.seed.id = n.id := rfl

/-- Siblings on one side of a parent. -/
def Node.Siblings (a b : Node) : Prop := a.parent = b.parent ∧ a.side = b.side

namespace Engine

variable {e e' : Engine} {history : List Operation}

/-- Operations that are not ready wait in the order in which they come. -/
theorem applyAll_buffered {ops : List Operation}
    (waits : ∀ op ∈ ops, e.hasApplied op.id = false ∧ e.ready op = false) :
    e.applyAll ops = .ok { e with pending := e.pending ++ ops } := by
  induction ops generalizing e with
  | nil => rw [List.append_nil, applyAll_nil]
  | cons op ops ih =>
      obtain ⟨unknown, notReady⟩ := waits op List.mem_cons_self
      have first : e.applyRemote op none = .ok (true, { e with pending := e.pending ++ [op] }) := by
        rw [applyRemote, Built.recordContext_none]
        simp [unknown, notReady]
      rw [applyAll_cons, first]
      refine (ih (e := { e with pending := e.pending ++ [op] }) fun x member =>
        waits x (List.mem_cons_of_mem _ member)).trans ?_
      rw [List.append_assoc]
      rfl

end Engine

namespace Seeding

variable {e : Engine} {history : List Operation}

/-- What became of fed nodes. -/
structure Fed (e e' : Engine) (history : List Operation) (nodes : List Node) : Prop where
  built : ∃ later, Built e' (history ++ later) ∧ ∀ op, op ∈ later ↔ op ∈ nodes.map Node.seed
  empty : e'.pending = []
  grown : e.applied <:+ e'.applied
  replicaId : e'.replicaId = e.replicaId

theorem Fed.applied {e' : Engine} {nodes : List Node} (fed : Fed e e' history nodes)
    (built : Built e history) (id : Identifier) :
    id ∈ e'.applied ↔ id ∈ e.applied ∨ ∃ n ∈ nodes, n.id = id := by
  obtain ⟨later, built', members⟩ := fed.built
  rw [built'.applied, built.applied]
  constructor
  · rintro ⟨op, member, rfl⟩
    rcases List.mem_append.mp member with old | new
    · exact Or.inl ⟨op, old, rfl⟩
    · obtain ⟨n, inside, rfl⟩ := List.mem_map.mp ((members op).mp new)
      exact Or.inr ⟨n, inside, rfl⟩
  · rintro (⟨op, old, rfl⟩ | ⟨n, inside, rfl⟩)
    · exact ⟨op, List.mem_append_left _ old, rfl⟩
    · exact ⟨n.seed, List.mem_append_right _ ((members _).mpr (List.mem_map_of_mem inside)), rfl⟩

/-- Everything below an applied node is applied once nothing is left to drain. -/
theorem applied_of_placed {F : Forest Node} {p : Option Identifier} {s : Side}
    (built : Built e history) (settled : e.Settled)
    (placed : F.Placed Node.id Node.parent Node.side p s)
    (reached : ∀ k, p = some k → ∃ ins : InsertOperation, .insert ins ∈ history ∧ ins.id = k)
    (offered : ∀ n ∈ F.inorder, n.seed ∈ e.pending ∨ n.seed ∈ history) :
    ∀ n ∈ F.inorder, n.seed ∈ history := by
  induction F generalizing p s with
  | nil => nofun
  | cons a l r t ihl ihr iht =>
      obtain ⟨under, -, inl, inr, rest⟩ := placed
      have here : a.seed ∈ history := by
        refine (offered a (by simp)).resolve_left fun waits => ?_
        have ready : e.ready a.seed = true :=
          built.ready_iff.mpr fun d named => reached d (under.symm.trans named)
        rw [(settled _ waits).2] at ready
        cases ready
      have below : ∀ k, some a.id = some k →
          ∃ ins : InsertOperation, .insert ins ∈ history ∧ ins.id = k := fun k same =>
        ⟨a.toInsert, here, Option.some.inj same⟩
      intro n member
      rcases mem_inorder_cons.mp member with rfl | left | right | tail
      · exact here
      · exact ihl inl below (fun x h => offered x (by simp [h])) n left
      · exact ihr inr below (fun x h => offered x (by simp [h])) n right
      · exact iht rest reached (fun x h => offered x (by simp [h])) n tail

/-- Siblings that wait together, without their parent between them. -/
def Apart (nodes : List Node) : Prop :=
  ∀ x p y, [x, p, y].Sublist nodes → x.Siblings y → x.parent ≠ some p.id

theorem together_of_apart {nodes : List Node} (apart : Apart nodes)
    (distinct : (nodes.map Node.id).Nodup) :
    Together (fun op op' => ∃ x y : Node, op = x.seed ∧ op' = y.seed ∧ x ∈ nodes ∧ y ∈ nodes ∧
      x.Siblings y) (nodes.map Node.seed) where
  same := by
    rintro _ _ ⟨x, y, rfl, rfl, -, -, siblings⟩
    exact siblings.1
  apart := by
    rintro _ p _ between ⟨x, y, rfl, rfl, inX, inY, siblings⟩ named
    have inject : ∀ u ∈ nodes, ∀ v ∈ nodes, u.seed = v.seed → u = v := fun u hu v hv same =>
      List.inj_on_of_nodup_map distinct hu hv (congrArg Operation.id same)
    obtain ⟨triple, sub, whole⟩ := List.sublist_map_iff.mp between
    obtain ⟨x', rest, rfl, sameX, whole⟩ := List.map_eq_cons_iff.mp whole.symm
    obtain ⟨p', rest', rfl, rfl, whole'⟩ := List.map_eq_cons_iff.mp whole
    obtain ⟨y', rest'', rfl, sameY, nothing⟩ := List.map_eq_cons_iff.mp whole'
    obtain rfl := List.map_eq_nil_iff.mp nothing
    obtain rfl := inject x' (sub.subset (by simp)) x inX sameX
    obtain rfl := inject y' (sub.subset (by simp)) y inY sameY
    exact apart x' p' y' sub siblings named
  distinct := by
    rw [List.map_map]
    exact distinct

/-- A node that is ready, after its left row: the row waits for it and is applied from its end. -/
theorem feed_node (built : Built e history) (empty : e.pending = []) {a : Node}
    {l : Forest Node} (placed : l.Placed Node.id Node.parent Node.side (some a.id) .L)
    (ready : DependencyMet history a.seed) (distinct : ((l.inorder ++ [a]).map Node.id).Nodup)
    (fresh : ∀ n ∈ l.inorder ++ [a], n.id ∉ e.applied) (apart : Apart l.inorder) :
    ∃ e', e.applyAll ((l.inorder ++ [a]).map Node.seed) = .ok e' ∧
      Fed e e' history (l.inorder ++ [a]) ∧
      ∀ x y, Before l.inorder x y → x.Siblings y → Before e'.applied x.id y.id := by
  have parts := distinct
  rw [List.map_append, List.nodup_append] at parts
  have unknown : ∀ n ∈ l.inorder ++ [a], e.hasApplied n.seed.id = false := fun n member => by
    rw [hasApplied, decide_eq_false_iff_not]
    exact fresh n member
  -- the left row waits
  have waits : ∀ op ∈ l.inorder.map Node.seed, e.hasApplied op.id = false ∧ e.ready op = false := by
    intro op member
    obtain ⟨n, inside, rfl⟩ := List.mem_map.mp member
    refine ⟨unknown n (List.mem_append_left _ inside), ?_⟩
    rw [Bool.eq_false_iff]
    intro now
    obtain ⟨k, named, below⟩ : ∃ k ∈ l.inorder ++ [a], n.parent = some k.id := by
      rcases placed.parent_cases inside with here | ⟨y, there, named⟩
      · exact ⟨a, by simp, here⟩
      · exact ⟨y, List.mem_append_left _ there, named⟩
    obtain ⟨ins, member', same⟩ := built.ready_iff.mp now k.id below
    exact fresh k named ((built.applied k.id).mpr ⟨.insert ins, member', same⟩)
  have buffered := applyAll_buffered waits
  rw [empty, List.nil_append] at buffered
  set e₁ : Engine := { e with pending := l.inorder.map Node.seed } with waiting
  have built₁ : Built e₁ history := built.congr rfl rfl (le_refl _)
  obtain ⟨e', released, applied, absorbed, settled, fromBuffer⟩ := built₁.applyRemote_fresh_spec
    (show e₁.hasApplied a.seed.id = false from unknown a (by simp)) (built₁.ready_iff.mpr ready) none
  have moves := applyRemote_moves applied
  have whole : e.applyAll ((l.inorder ++ [a]).map Node.seed) = .ok e' := by
    rw [List.map_append, applyAll_append buffered]
    simp [applied, bind, Except.bind]
  have old : ∀ n ∈ l.inorder ++ [a], n.seed ∉ history := fun n member known =>
    fresh n member ((built.applied n.id).mpr ⟨n.seed, known, rfl⟩)
  -- everything that was offered is applied
  have all : ∀ n ∈ l.inorder, n.seed ∈ history ++ a.seed :: released := by
    refine applied_of_placed absorbed.built settled placed (fun k same => ?_) fun n member => ?_
    · exact ⟨a.toInsert, List.mem_append_right _ List.mem_cons_self, Option.some.inj same⟩
    · refine (absorbed.complete n.seed (List.mem_append_left _ (List.mem_map_of_mem member))).imp_right
        fun known => ?_
      obtain ⟨op, inside, same⟩ := absorbed.built.hasApplied_iff.mp known
      rcases List.mem_append.mp inside with before | new
      · exact absurd ((built.applied n.id).mpr ⟨op, before, same⟩)
          (fresh n (List.mem_append_left _ member))
      · obtain ⟨m, there, rfl⟩ : ∃ m ∈ l.inorder ++ [a], m.seed = op := by
          rcases List.mem_cons.mp new with rfl | late
          · exact ⟨a, by simp, rfl⟩
          · obtain ⟨m, there, named⟩ := List.mem_map.mp (fromBuffer op late)
            exact ⟨m, List.mem_append_left _ there, named⟩
        rw [← List.inj_on_of_nodup_map distinct there (List.mem_append_left _ member) same]
        exact inside
  have fed : Fed e e' history (l.inorder ++ [a]) := by
    refine ⟨⟨a.seed :: released, absorbed.built, fun op => ⟨fun member => ?_, fun member => ?_⟩⟩,
      List.eq_nil_iff_forall_not_mem.mpr fun op waits => ?_, moves.applied_suffix,
      absorbed.replicaId⟩
    · rw [List.map_append]
      rcases List.mem_cons.mp member with rfl | late
      · exact List.mem_append_right _ (by simp)
      · exact List.mem_append_left _ (fromBuffer op late)
    · obtain ⟨n, inside, rfl⟩ := List.mem_map.mp member
      rcases List.mem_append.mp inside with left | self
      · exact (List.mem_append.mp (all n left)).resolve_left (old n inside)
      · rw [List.mem_singleton.mp self]
        exact List.mem_cons_self
    · -- nothing that was offered waits any more
      have unapplied := (settled op waits).1
      obtain ⟨x, inside, same⟩ : ∃ x ∈ history ++ a.seed :: released, x.id = op.id := by
        rcases List.mem_append.mp (absorbed.pendingFrom.subset waits) with left | self
        · obtain ⟨n, there, rfl⟩ := List.mem_map.mp left
          exact ⟨n.seed, all n there, rfl⟩
        · rw [List.mem_singleton.mp self]
          exact ⟨a.seed, List.mem_append_right _ List.mem_cons_self, rfl⟩
      rw [absorbed.built.hasApplied_iff.mpr ⟨x, inside, same⟩] at unapplied
      cases unapplied
  refine ⟨e', whole, fed, fun x y before siblings => ?_⟩
  have together := together_of_apart apart parts.1
  refine applyRemote_reversed built₁
    (show e₁.hasApplied a.seed.id = false from unknown a (by simp))
    (built₁.ready_iff.mpr ready) together (fun op member => ?_) applied x.seed y.seed
    (before.map Node.seed) ⟨x, y, rfl, rfl, before.mem.1, before.mem.2, siblings⟩ ?_
  · obtain ⟨n, inside, rfl⟩ := List.mem_map.mp member
    refine ⟨fresh n (List.mem_append_left _ inside), fun same => ?_⟩
    exact parts.2.2 n.id (List.mem_map_of_mem inside) a.id (by simp) same
  · exact (fed.applied built x.id).mpr (Or.inr ⟨x, List.mem_append_left _ before.mem.1, rfl⟩)

theorem Fed.trans {e₁ e₂ : Engine} {later : List Operation} {first second : List Node}
    (fed : Fed e e₁ history first) (members : ∀ op, op ∈ later ↔ op ∈ first.map Node.seed)
    (fed' : Fed e₁ e₂ (history ++ later) second) : Fed e e₂ history (first ++ second) where
  built := by
    obtain ⟨latest, built, members'⟩ := fed'.built
    refine ⟨later ++ latest, by rwa [← List.append_assoc], fun op => ?_⟩
    rw [List.mem_append, members, members', List.map_append, List.mem_append]
  empty := fed'.empty
  grown := fed.grown.trans fed'.grown
  replicaId := fed'.replicaId.trans fed.replicaId

/-- Spine nodes were applied in their order, siblings of a left row in the opposite order; `applied`
lists the newest identifier first. -/
structure Arranged (visited : List (Node × Forest Node)) (applied : List Identifier) : Prop where
  spine : (visited.map Prod.fst).Pairwise fun x y => Before applied y.id x.id
  rows : ∀ node ∈ visited, ∀ x y, Before node.2.inorder x y → x.Siblings y →
    Before applied x.id y.id

/-- What is applied later is newer. -/
theorem Arranged.append {first second : List (Node × Forest Node)}
    {applied applied' : List Identifier} (arranged : Arranged first applied)
    (arranged' : Arranged second applied') (grown : applied <:+ applied')
    (old : ∀ node ∈ first, node.1.id ∈ applied)
    (new : ∀ node ∈ second, node.1.id ∈ applied' ∧ node.1.id ∉ applied) :
    Arranged (first ++ second) applied' where
  spine := by
    rw [List.map_append, List.pairwise_append]
    refine ⟨arranged.spine.imp fun before => before.mono grown.sublist, arranged'.spine,
      fun x inX y inY => ?_⟩
    obtain ⟨node, member, rfl⟩ := List.mem_map.mp inX
    obtain ⟨node', member', rfl⟩ := List.mem_map.mp inY
    exact before_of_suffix grown (old node member) (new node' member').1 (new node' member').2
  rows node member x y before siblings := by
    rcases List.mem_append.mp member with inFirst | inSecond
    · exact (arranged.rows node inFirst x y before siblings).mono grown.sublist
    · exact arranged'.rows node inSecond x y before siblings

theorem mem_of_mem_spine {F : Forest Node} {node : Node × Forest Node} (member : node ∈ F.spine) :
    node.1 ∈ F.inorder := by
  obtain ⟨r, sub, -⟩ := sub_of_mem_spine (x := node.1) (l := node.2) member
  exact sub.mem

/-- What right links reach is applied when it is fed. -/
theorem feed_row {F : Forest Node} {p : Option Identifier} {s : Side} (built : Built e history)
    (empty : e.pending = []) (placed : F.Placed Node.id Node.parent Node.side p s)
    (reached : ∀ k, p = some k → ∃ ins : InsertOperation, .insert ins ∈ history ∧ ins.id = k)
    (distinct : (F.inorder.map Node.id).Nodup) (fresh : ∀ n ∈ F.inorder, n.id ∉ e.applied)
    (apart : Apart F.inorder) :
    ∃ e', e.applyAll (F.inorder.map Node.seed) = .ok e' ∧ Fed e e' history F.inorder ∧
      Arranged F.spine e'.applied := by
  induction F generalizing e history p s with
  | nil =>
      refine ⟨e, rfl, ⟨⟨[], by rwa [List.append_nil], fun op => Iff.rfl⟩, empty,
        List.suffix_refl _, rfl⟩, List.Pairwise.nil, nofun⟩
  | cons a l r t _ ihr iht =>
      obtain ⟨under, -, inl, inr, rest⟩ := placed
      have split : (cons a l r t).inorder = (l.inorder ++ [a]) ++ r.inorder ++ t.inorder := by
        simp [inorder]
      rw [split] at distinct fresh apart ⊢
      have sub₁ : (l.inorder ++ [a]).Sublist ((l.inorder ++ [a]) ++ r.inorder ++ t.inorder) :=
        (List.sublist_append_left ..).trans (List.sublist_append_left ..)
      have sub₂ : r.inorder.Sublist ((l.inorder ++ [a]) ++ r.inorder ++ t.inorder) :=
        (List.sublist_append_right ..).trans (List.sublist_append_left ..)
      have sub₃ : t.inorder.Sublist ((l.inorder ++ [a]) ++ r.inorder ++ t.inorder) :=
        List.sublist_append_right ..
      have within : ∀ {part : List Node}, part.Sublist _ → Apart part := fun sub x p y inside =>
        apart x p y (inside.trans sub)
      have parts := distinct
      rw [List.map_append, List.map_append, List.nodup_append, List.nodup_append] at parts
      obtain ⟨⟨distinct₁, distinct₂, apart₁₂⟩, distinct₃, apart₃⟩ := parts
      obtain ⟨e₁, applied₁, fed₁, reversed⟩ := feed_node built empty inl
        (fun d named => reached d (under.symm.trans named)) distinct₁
        (fun n member => fresh n (sub₁.subset member))
        (within ((List.sublist_append_left ..).trans sub₁))
      obtain ⟨later₁, built₁, members₁⟩ := fed₁.built
      have here : ∃ ins : InsertOperation, .insert ins ∈ history ++ later₁ ∧ ins.id = a.id :=
        ⟨a.toInsert, List.mem_append_right _ ((members₁ _).mpr (by simp [Node.seed])), rfl⟩
      have fresh₂ : ∀ n ∈ r.inorder, n.id ∉ e₁.applied := fun n member known => by
        rcases (fed₁.applied built n.id).mp known with old | ⟨m, there, same⟩
        · exact fresh n (sub₂.subset member) old
        · exact apart₁₂ _ (List.mem_map_of_mem there) _ (List.mem_map_of_mem member) same
      obtain ⟨e₂, applied₂, fed₂, arranged₂⟩ := ihr built₁ fed₁.empty inr
        (fun k same => Option.some.inj same ▸ here) distinct₂ fresh₂ (within sub₂)
      obtain ⟨later₂, built₂, members₂⟩ := fed₂.built
      have fed₁₂ := fed₁.trans members₁ fed₂
      have fresh₃ : ∀ n ∈ t.inorder, n.id ∉ e₂.applied := fun n member known => by
        rcases (fed₁₂.applied built n.id).mp known with old | ⟨m, there, same⟩
        · exact fresh n (sub₃.subset member) old
        · refine apart₃ _ ?_ _ (List.mem_map_of_mem member) same
          rw [← List.map_append]
          exact List.mem_map_of_mem there
      obtain ⟨e₃, applied₃, fed₃, arranged₃⟩ := iht built₂ fed₂.empty rest
        (fun k same => by
          obtain ⟨ins, member, named⟩ := reached k same
          exact ⟨ins, List.mem_append_left _ (List.mem_append_left _ member), named⟩)
        distinct₃ fresh₃ (within sub₃)
      have fed : Fed e e₃ history ((l.inorder ++ [a]) ++ r.inorder ++ t.inorder) := by
        refine fed₁₂.trans (show ∀ op, op ∈ later₁ ++ later₂ ↔ _ from fun op => ?_) ?_
        · rw [List.mem_append, members₁, members₂, @List.map_append _ _ _ _ r.inorder,
            List.mem_append]
        · rw [← List.append_assoc]
          exact fed₃
      refine ⟨e₃, ?_, fed, ?_⟩
      · rw [List.map_append, List.map_append, List.append_assoc, applyAll_append applied₁,
          applyAll_append applied₂]
        exact applied₃
      -- everything that comes later is new
      have first : Arranged [(a, l)] e₁.applied := by
        refine ⟨List.pairwise_singleton .., fun node member => ?_⟩
        rw [List.mem_singleton.mp member]
        exact reversed
      have known₁ : ∀ node ∈ [(a, l)], node.1.id ∈ e₁.applied := fun node member => by
        rw [List.mem_singleton.mp member]
        exact (fed₁.applied built a.id).mpr (Or.inr ⟨a, by simp, rfl⟩)
      have both : Arranged ((a, l) :: r.spine) e₂.applied :=
        first.append arranged₂ fed₂.grown known₁ fun node member =>
          ⟨(fed₂.applied built₁ _).mpr (Or.inr ⟨node.1, mem_of_mem_spine member, rfl⟩),
            fresh₂ node.1 (mem_of_mem_spine member)⟩
      refine both.append arranged₃ fed₃.grown (fun node member => ?_) fun node member =>
        ⟨(fed₃.applied built₂ _).mpr (Or.inr ⟨node.1, mem_of_mem_spine member, rfl⟩),
          fresh₃ node.1 (mem_of_mem_spine member)⟩
      rcases List.mem_cons.mp member with rfl | below
      · exact fed₂.grown.subset (known₁ _ List.mem_cons_self)
      · exact (fed₂.applied built₁ _).mpr (Or.inr ⟨node.1, mem_of_mem_spine below, rfl⟩)

/-- Both root rows are fed into a new engine. -/
theorem feed_nodes (replicaId : Nat) {R : Node → Node → Prop} {left right : Forest Node}
    (rows : Rows Node.id Node.parent Node.side R left right) :
    ∃ e', (Engine.new replicaId).applyAll ((left.inorder ++ right.inorder).map Node.seed) = .ok e' ∧
      Fed (Engine.new replicaId) e' [] (left.inorder ++ right.inorder) ∧
      Arranged (left.spine ++ right.spine) e'.applied := by
  have apart : Apart (left.inorder ++ right.inorder) := fun x p y between siblings =>
    rows.not_between between siblings.1 siblings.2
  have parts := rows.distinct
  rw [List.map_append, List.nodup_append] at parts
  obtain ⟨e₁, applied₁, fed₁, arranged₁⟩ := feed_row (built_new replicaId) rfl rows.placedLeft
    nofun parts.1 nofun fun x p y inside => apart x p y (inside.trans (List.sublist_append_left ..))
  obtain ⟨later₁, built₁, members₁⟩ := fed₁.built
  have fresh : ∀ n ∈ right.inorder, n.id ∉ e₁.applied := fun n member known => by
    rcases (fed₁.applied (built_new replicaId) n.id).mp known with old | ⟨m, there, same⟩
    · cases old
    · exact parts.2.2 _ (List.mem_map_of_mem there) _ (List.mem_map_of_mem member) same
  obtain ⟨e₂, applied₂, fed₂, arranged₂⟩ := feed_row built₁ fed₁.empty rows.placedRight
    nofun parts.2.1 fresh fun x p y inside => apart x p y
      (inside.trans (List.sublist_append_right ..))
  refine ⟨e₂, ?_, fed₁.trans members₁ fed₂, arranged₁.append arranged₂ fed₂.grown
    (fun node member => ?_) fun node member => ⟨?_, fresh node.1 (mem_of_mem_spine member)⟩⟩
  · rw [List.map_append, applyAll_append applied₁]
    exact applied₂
  · exact (fed₁.applied (built_new replicaId) _).mpr
      (Or.inr ⟨node.1, mem_of_mem_spine member, rfl⟩)
  · exact (fed₂.applied built₁ _).mpr (Or.inr ⟨node.1, mem_of_mem_spine member, rfl⟩)

end Seeding

/-! ### What the nodes of a reachable engine carry -/

/-- A tombstone has an attribution, which is the identifier of one delete. -/
structure Marked (nodes : List Node) (applied : List Identifier) : Prop where
  flags : ∀ n ∈ nodes, n.deleted = n.deletedBy.isSome
  known : ∀ n ∈ nodes, ∀ d, n.deletedBy = some d → d ∈ applied
  apart : ∀ n ∈ nodes, ∀ d, n.deletedBy = some d → ∀ m ∈ nodes, m.id ≠ d
  single : ∀ n ∈ nodes, ∀ d, n.deletedBy = some d → ∀ m ∈ nodes, m.deletedBy = some d → m.id = n.id

theorem Marked.sub {nodes part : List Node} {applied applied' : List Identifier}
    (marked : Marked nodes applied) (sub : ∀ n ∈ part, n ∈ nodes)
    (grown : ∀ id ∈ applied, id ∈ applied') : Marked part applied' where
  flags n member := marked.flags n (sub n member)
  known n member d dot := grown d (marked.known n (sub n member) d dot)
  apart n member d dot m member' := marked.apart n (sub n member) d dot m (sub m member')
  single n member d dot m member' := marked.single n (sub n member) d dot m (sub m member')

theorem Engine.Listed.marked {applied applied' : List Identifier} {old new : List Node}
    (listed : Listed applied old new applied') (known : ∀ n ∈ old, n.id ∈ applied)
    (marked : Marked old applied) : Marked new applied' := by
  cases listed with
  | same => exact marked
  | spared id fresh => exact marked.sub (fun _ member => member) fun _ => List.mem_cons_of_mem _
  | remove split =>
      refine marked.sub (fun n member => ?_) fun _ known => known
      rw [split]
      rcases List.mem_append.mp member with first | last
      · exact List.mem_append_left _ first
      · exact List.mem_append_right _ (List.mem_cons_of_mem _ last)
  | insert op fresh split =>
      rename_i before after
      have cases' : ∀ n ∈ before ++ op.toNode :: after, n = op.toNode ∨ n ∈ old := fun n member => by
        rw [split]
        simp only [List.mem_append, List.mem_cons] at member ⊢
        tauto
      have dotted : ∀ n ∈ before ++ op.toNode :: after, ∀ d, n.deletedBy = some d → n ∈ old :=
        fun n member d dot => (cases' n member).resolve_left fun here => by
          rw [here] at dot
          cases dot
      refine ⟨fun n member => ?_, fun n member d dot => ?_, fun n member d dot m member' => ?_,
        fun n member d dot m member' dot' => ?_⟩
      · rcases cases' n member with rfl | inside
        · rfl
        · exact marked.flags n inside
      · exact List.mem_cons_of_mem _ (marked.known n (dotted n member d dot) d dot)
      · rcases cases' m member' with rfl | inside
        · rintro rfl
          exact fresh (marked.known n (dotted n member _ dot) _ dot)
        · exact marked.apart n (dotted n member d dot) d dot m inside
      · exact marked.single n (dotted n member d dot) d dot m (dotted m member' d dot') dot'
  | @flag id fresh target dot inside named =>
      -- the attribution of a flagged node is an old one, or the new identifier on the target
      have shape : ∀ n ∈ old.map (FugueTree.flag target.id dot.isSome dot), ∃ m ∈ old,
          m.id = n.id ∧ (n = m ∧ m.id ≠ target.id ∨ m.id = target.id ∧ n.deleted = dot.isSome ∧
            n.deletedBy = dot) := by
        intro n member
        obtain ⟨m, there, rfl⟩ := List.mem_map.mp member
        refine ⟨m, there, (FugueTree.flag_id ..).symm, ?_⟩
        by_cases here : m.id = target.id
        · exact Or.inr ⟨here, by rw [FugueTree.flag, if_pos here], by rw [FugueTree.flag, if_pos here]⟩
        · exact Or.inl ⟨by rw [FugueTree.flag, if_neg here], here⟩
      have dots : ∀ n ∈ old.map (FugueTree.flag target.id dot.isSome dot), ∀ d,
          n.deletedBy = some d → (∃ m ∈ old, m.id = n.id ∧ m.deletedBy = some d) ∨
            d = id ∧ n.id = target.id := by
        intro n member d shown
        obtain ⟨m, there, sameId, ⟨rfl, -⟩ | ⟨here, -, flagged⟩⟩ := shape n member
        · exact Or.inl ⟨n, there, rfl, shown⟩
        · rw [flagged] at shown
          rcases named with none | mine | kept
          · rw [none] at shown
            cases shown
          · rw [mine] at shown
            exact Or.inr ⟨(Option.some.inj shown).symm, sameId.symm.trans here⟩
          · exact Or.inl ⟨target, inside, here.symm.trans sameId, kept.symm.trans shown⟩
      refine ⟨fun n member => ?_, fun n member d shown => ?_, fun n member d shown m member' => ?_,
        fun n member d shown m member' shown' => ?_⟩
      · obtain ⟨m, there, -, ⟨rfl, -⟩ | ⟨-, deleted, flagged⟩⟩ := shape n member
        · exact marked.flags n there
        · rw [deleted, flagged]
      · rcases dots n member d shown with ⟨m, there, -, dot⟩ | ⟨rfl, -⟩
        · exact List.mem_cons_of_mem _ (marked.known m there d dot)
        · exact List.mem_cons_self
      · obtain ⟨m', there', sameId', -⟩ := shape m member'
        rw [← sameId']
        rcases dots n member d shown with ⟨x, there, -, dot⟩ | ⟨rfl, -⟩
        · exact marked.apart x there d dot m' there'
        · exact fun same => fresh (same ▸ known m' there')
      · rcases dots n member d shown with ⟨x, there, sameX, dot⟩ | ⟨rfl, here⟩
        · rcases dots m member' d shown' with ⟨y, there', sameY, dot'⟩ | ⟨rfl, -⟩
          · exact sameY.symm.trans ((marked.single x there d dot y there' dot').trans sameX)
          · exact absurd (marked.known x there _ dot) fresh
        · rcases dots m member' _ shown' with ⟨y, there', -, dot'⟩ | ⟨-, here'⟩
          · exact absurd (marked.known y there' _ dot') fresh
          · exact here'.trans here.symm

theorem Engine.Reachable.marked {e : Engine} (reachable : e.Reachable) :
    Marked e.tree.nodes e.applied := by
  refine reachable.keeps (P := fun e => Marked e.tree.nodes e.applied) (fun replicaId => ?_)
    fun sound move marked => (sound.listed move).marked sound.known marked
  exact ⟨nofun, nofun, nofun, nofun⟩

/-! ### The seeded engine -/

namespace Seeding

theorem applyAll_moves {e e' : Engine} {ops : List Operation} (applied : e.applyAll ops = .ok e') :
    Moves e e' := by
  induction ops generalizing e with
  | nil =>
      obtain rfl := Except.ok.inj applied
      exact .refl
  | cons op ops ih =>
      obtain ⟨⟨buffered, e₁⟩, first, rest⟩ := Throwing.ok_of_bind applied
      exact (applyRemote_moves first).trans (ih rest)

theorem nodup_of_change {t t' : FugueTree} {applied applied' : List Identifier}
    (change : Change t applied t' applied') (nodup : applied.Nodup) : applied'.Nodup := by
  cases change with
  | idle => exact nodup
  | remove => exact nodup
  | insert op fresh => exact List.nodup_cons.mpr ⟨fresh, nodup⟩
  | delete op fresh => exact List.nodup_cons.mpr ⟨fresh, nodup⟩
  | undelete op fresh => exact List.nodup_cons.mpr ⟨fresh, nodup⟩
  | spared op fresh => exact List.nodup_cons.mpr ⟨fresh, nodup⟩

theorem nodup_applied {e e' : Engine} (moves : Moves e e') (nodup : e.applied.Nodup) :
    e'.applied.Nodup :=
  moves.keeps (P := fun e => e.applied.Nodup) (fun move nodup => nodup_of_change move.change nodup)
    nodup

theorem distinctIds_snapshotOps {t : FugueTree} {applied : List Identifier} (wf : t.WF)
    (marked : Marked t.nodes applied) : DistinctIds (snapshotOps t.nodes) := by
  rintro (ins | ⟨d, target⟩ | und) member (ins' | ⟨d', target'⟩ | und') member' same
  · obtain ⟨n, inside, rfl⟩ := List.mem_map.mp (insert_mem_snapshotOps.mp member)
    obtain ⟨m, inside', rfl⟩ := List.mem_map.mp (insert_mem_snapshotOps.mp member')
    rw [wf.eq_of_id_eq inside inside' same]
  · obtain ⟨n, inside, rfl⟩ := List.mem_map.mp (insert_mem_snapshotOps.mp member)
    obtain ⟨m, inside', -, dot⟩ := delete_mem_snapshotOps.mp member'
    exact absurd same (marked.apart m inside' d' dot n inside)
  · exact absurd member' undelete_not_mem_snapshotOps
  · obtain ⟨n, inside, -, dot⟩ := delete_mem_snapshotOps.mp member
    obtain ⟨m, inside', rfl⟩ := List.mem_map.mp (insert_mem_snapshotOps.mp member')
    exact absurd same.symm (marked.apart n inside d dot m inside')
  · obtain ⟨n, inside, named, dot⟩ := delete_mem_snapshotOps.mp member
    obtain ⟨m, inside', named', dot'⟩ := delete_mem_snapshotOps.mp member'
    obtain rfl : d = d' := same
    have one : target' = target :=
      named'.symm.trans ((marked.single n inside d dot m inside' dot').trans named)
    rw [one]
  · exact absurd member' undelete_not_mem_snapshotOps
  · exact absurd member undelete_not_mem_snapshotOps
  · exact absurd member undelete_not_mem_snapshotOps
  · exact absurd member undelete_not_mem_snapshotOps

/-- What seeding with the nodes of a tree gives. -/
structure Seeded (t : FugueTree) (e : Engine) (history : List Operation) : Prop where
  built : Built e history
  members : ∀ op, op ∈ history ↔ op ∈ snapshotOps t.nodes
  empty : e.pending = []
  arrived : e.Arrived
  nodup : e.applied.Nodup
  arranged : Arranged ((t.leftChildren.map TreeNode.toPublicNode).spine ++
    (t.rightChildren.map TreeNode.toPublicNode).spine) e.applied

theorem seed_spec (replicaId : Nat) {t : FugueTree} {applied : List Identifier} (wf : t.WF)
    (marked : Marked t.nodes applied) :
    ∃ e history, seedEngineFromSnapshot replicaId t.nodes = .ok e ∧ Seeded t e history := by
  obtain ⟨e₁, inserted, fed, arranged⟩ := feed_nodes replicaId wf.rows
  rw [FugueTree.inorder_public] at inserted fed
  obtain ⟨later, built₁, members₁⟩ := fed.built
  rw [List.nil_append] at built₁
  have distinct := distinctIds_snapshotOps wf marked
  set deletes := t.nodes.filterMap Node.tombstone with tombstones
  have whole : ∀ op, op ∈ later ++ deletes ↔ op ∈ snapshotOps t.nodes := fun op => by
    rw [List.mem_append, members₁, snapshotOps, List.mem_append]
    rfl
  have nodup : deletes.Nodup := by
    refine List.pairwise_filterMap.mpr ((List.pairwise_map.mp wf.nodup).imp
      fun {n m} other op shown op' shown' same => other ?_)
    obtain ⟨d, -, rfl⟩ := Option.map_eq_some_iff.mp shown
    obtain ⟨d', -, rfl⟩ := Option.map_eq_some_iff.mp shown'
    exact congrArg Operation.target same
  have causal : Causal (later ++ deletes) := by
    refine built₁.causal.append_of_met fun op member d named => ?_
    obtain ⟨n, inside, shown⟩ := List.mem_filterMap.mp member
    obtain ⟨dot, -, rfl⟩ := Option.map_eq_some_iff.mp shown
    exact ⟨n.toInsert, (members₁ _).mpr (List.mem_map_of_mem (f := Node.seed) inside),
      Option.some.inj named⟩
  obtain ⟨e₂, deleted, built₂, empty, -⟩ := built₁.applyAll_causal fed.empty
    (distinct.subset fun op member => (whole op).mp member) nodup causal
  have moves₁ := applyAll_moves inserted
  have moves₂ := applyAll_moves deleted
  have moves := moves₁.trans moves₂
  refine ⟨e₂, _, ?_, built₂, fun op => ?_, empty, ?_, nodup_applied moves List.nodup_nil, ?_⟩
  · rw [seedEngineFromSnapshot, replaySnapshotNodesInto_eq _ marked.flags, snapshotOps]
    exact (applyAll_append inserted _).trans deleted
  · rw [← whole, List.mem_append, List.mem_append, List.mem_filter, decide_eq_true_iff]
    tauto
  · exact (arrived_new replicaId).moves (sound_new replicaId) moves
  · have grown := moves₂.applied_suffix
    exact ⟨arranged.spine.imp fun before => before.mono grown.sublist, fun node member x y before
      siblings => (arranged.rows node member x y before siblings).mono grown.sublist⟩

/-- The seeded engine has the nodes of the tree, in some order. -/
theorem Seeded.mem_nodes {t : FugueTree} {e : Engine} {history : List Operation}
    {applied : List Identifier} (seeded : Seeded t e history) (wf : t.WF)
    (marked : Marked t.nodes applied) (x : Node) : x ∈ e.tree.nodes ↔ x ∈ t.nodes :=
  seeded.built.mem_nodes_of_snapshotOps seeded.members wf.nodup marked.flags x

/-- Every part of a document that is closed under parents can be seeded. -/
theorem seed_closed {e : Engine} (reachable : e.Reachable) {base : List Node}
    (nodup : (base.map Node.id).Nodup)
    (inserted : ∀ n ∈ base, ∃ m ∈ e.tree.nodes, m.toInsert = n.toInsert)
    (marked : ∀ n ∈ base, n.deleted = n.deletedBy.isSome)
    (dots : ∀ n ∈ base, ∀ d, n.deletedBy = some d →
      ∃ m ∈ e.tree.nodes, m.id = n.id ∧ m.deletedBy = some d)
    (closed : ∀ n ∈ base, ∀ p, n.parent = some p → ∃ m ∈ base, m.id = p) (replicaId : Nat) :
    ∃ e', seedEngineFromSnapshot replicaId base = .ok e' ∧ e'.pending = [] ∧
      e'.replicaId = replicaId ∧ e'.tree.WF ∧ ∀ n, n ∈ e'.tree.nodes ↔ n ∈ base := by
  obtain ⟨e₀, history, -, seeded⟩ :=
    seed_spec replicaId reachable.sound.wf reachable.marked
  have distinct := distinctIds_snapshotOps reachable.sound.wf reachable.marked
  have inside : ∀ op ∈ snapshotOps base, op ∈ snapshotOps e.tree.nodes := by
    rintro (ins | ⟨d, target⟩ | und) member
    · obtain ⟨n, there, rfl⟩ := List.mem_map.mp (insert_mem_snapshotOps.mp member)
      obtain ⟨m, old, same⟩ := inserted n there
      exact insert_mem_snapshotOps.mpr (List.mem_map.mpr ⟨m, old, same⟩)
    · obtain ⟨n, there, named, dot⟩ := delete_mem_snapshotOps.mp member
      obtain ⟨m, old, same, dot'⟩ := dots n there d dot
      exact delete_mem_snapshotOps.mpr ⟨m, old, same.trans named, dot'⟩
    · exact absurd member undelete_not_mem_snapshotOps
  -- the inserts in an order that applies them all, then the tombstones
  set part := (insertsOf history).filter fun op => decide (op ∈ snapshotOps base) with hpart
  have inPart : ∀ ins : InsertOperation, .insert ins ∈ part ↔ .insert ins ∈ snapshotOps base := by
    intro ins
    rw [hpart, List.mem_filter, insert_mem_insertsOf, seeded.members, decide_eq_true_iff]
    exact and_iff_right_of_imp (inside _)
  have sameOps : ∀ op, op ∈ part ++ base.filterMap Node.tombstone ↔ op ∈ snapshotOps base := by
    intro op
    cases op with
    | insert ins =>
        rw [List.mem_append, inPart]
        simp [Node.tombstone]
    | delete del => simp [hpart, snapshotOps, insertsOf]
    | undelete und => simp [hpart, snapshotOps, insertsOf]
  have causal : Causal (part ++ base.filterMap Node.tombstone) := by
    refine (seeded.built.causal.insertsOf.filter _ ?_).append_of_met fun op member d named => ?_
    · intro op member kept ins known named
      obtain ⟨n, there, rfl⟩ : ∃ n ∈ base, op = .insert n.toInsert := by
        cases op with
        | insert ins' =>
            obtain ⟨n, there, rfl⟩ := List.mem_map.mp
              (insert_mem_snapshotOps.mp (of_decide_eq_true kept))
            exact ⟨n, there, rfl⟩
        | delete del => simp [insertsOf] at member
        | undelete und => simp [insertsOf] at member
      obtain ⟨m, there', same⟩ := closed n there ins.id named
      have known' := (seeded.members _).mp (insert_mem_insertsOf.mp known)
      have other : Operation.insert m.toInsert ∈ snapshotOps e.tree.nodes :=
        inside _ (insert_mem_snapshotOps.mpr (List.mem_map_of_mem there'))
      rw [distinct _ known' _ other same.symm]
      exact decide_eq_true (insert_mem_snapshotOps.mpr (List.mem_map_of_mem there'))
    · obtain ⟨n, there, shown⟩ := List.mem_filterMap.mp member
      obtain ⟨dot, -, rfl⟩ := Option.map_eq_some_iff.mp shown
      exact ⟨n.toInsert, (inPart _).mpr (insert_mem_snapshotOps.mpr (List.mem_map_of_mem there)),
        Option.some.inj named⟩
  obtain ⟨e', later, seeds, built, empty, sameReplica, members⟩ := replay_spec replicaId marked causal
    (distinct.subset fun op member => inside op ((sameOps op).mp member)) sameOps
  exact ⟨e', seeds, empty, sameReplica, built.wf,
    built.mem_nodes_of_snapshotOps members nodup marked⟩

end Seeding

/-- Tied siblings are reached from the root by right links. -/
def TiesRightward (nodes : List Node) : Prop :=
  ∀ x ∈ nodes, ∀ y ∈ nodes, x ≠ y → x.Tied y → Rightward Node.id Node.parent Node.side nodes x

/-- The seeded engine shows the same nodes in the same order, nothing waits in it, and its clock is
not behind any identifier of the nodes. -/
structure Reproduces (image : List Node) (e : Engine) : Prop where
  nodes : e.nodes = image
  empty : e.pending = []
  clock : ∀ n ∈ image, n.id.c ≤ e.clock ∧ ∀ d, n.deletedBy = some d → d.c ≤ e.clock

namespace Seeding

section Order

variable {t : FugueTree} {e : Engine} {history : List Operation} {applied : List Identifier}

theorem Seeded.clock (seeded : Seeded t e history) : ∀ n ∈ t.nodes, n.id.c ≤ e.clock ∧
    ∀ d, n.deletedBy = some d → d.c ≤ e.clock := by
  refine fun n member => ⟨?_, fun d dot => ?_⟩
  · exact seeded.built.clock (.insert n.toInsert) ((seeded.members _).mpr
      (insert_mem_snapshotOps.mpr (List.mem_map_of_mem member)))
  · exact seeded.built.clock (.delete ⟨d, n.id⟩) ((seeded.members _).mpr
      (delete_mem_snapshotOps.mpr ⟨n, member, rfl, dot⟩))

/-- Tied siblings that right links reach stand in their old order. -/
theorem Seeded.nodes_eq (seeded : Seeded t e history) (wf : t.WF) (marked : Marked t.nodes applied)
    (ties : TiesRightward t.nodes) : e.tree.nodes = t.nodes := by
  have rows := wf.rows
  have rows' := seeded.built.wf.rows
  have nodup : t.nodes.Nodup := wf.nodup.of_map
  have members := seeded.mem_nodes wf marked
  suffices order : ∀ x y, Before t.nodes x y → x.parent = y.parent → x.side = y.side →
      Before e.tree.nodes x y by
    obtain ⟨left, right⟩ := rows'.eq_of_before rows
      (by rwa [FugueTree.inorder_public, FugueTree.inorder_public])
      (by rwa [FugueTree.inorder_public, FugueTree.inorder_public])
    rw [← FugueTree.inorder_public, left, right, FugueTree.inorder_public]
  intro x y before same sameSide
  have old := rows.before (by rwa [FugueTree.inorder_public]) same sameSide
  have other : x ≠ y := fun equal => List.nodup_iff_sublist.mp nodup y (equal ▸ before)
  refine (before_total ((members x).mpr before.mem.1) ((members y).mpr before.mem.2)
    other).resolve_right fun swapped => ?_
  -- siblings that changed places are tied, so they were applied in their old order
  have new := rows'.before (by rwa [FugueTree.inorder_public]) same.symm sameSide.symm
  have tied : x.Tied y := ⟨same, sameSide, Node.rank_eq_of_siblingLE old new⟩
  have reached := ties x before.mem.1 y before.mem.2 other tied
  have reached' := ties y before.mem.2 x before.mem.1 other.symm tied.symm
  rw [← FugueTree.inorder_public] at reached reached'
  obtain ⟨lx, onSpine⟩ := (rows.rightward_iff (by
    rw [FugueTree.inorder_public]
    exact before.mem.1)).mp reached
  obtain ⟨ly, onSpine'⟩ := (rows.rightward_iff (by
    rw [FugueTree.inorder_public]
    exact before.mem.2)).mp reached'
  have part : (((t.leftChildren.map TreeNode.toPublicNode).spine ++
      (t.rightChildren.map TreeNode.toPublicNode).spine).map Prod.fst).Sublist t.nodes := by
    rw [← FugueTree.inorder_public, List.map_append]
    exact (spine_sublist _).append (spine_sublist _)
  have here := before.restrict nodup part (List.mem_map_of_mem onSpine)
    (List.mem_map_of_mem onSpine')
  have later := List.pairwise_iff_forall_sublist.mp seeded.arranged.spine here
  exact later.asymm seeded.nodup (seeded.arrived y x swapped tied.symm)

/-- Tied siblings that hang to the left change places. -/
theorem Seeded.ties (seeded : Seeded t e history) (wf : t.WF) (same : e.tree.nodes = t.nodes) :
    TiesRightward t.nodes := by
  have rows := wf.rows
  have nodup : t.nodes.Nodup := wf.nodup.of_map
  intro x inX y inY other tied
  by_contra apart
  rw [← FugueTree.inorder_public] at apart inX inY
  -- both wait for the same spine node
  obtain ⟨a, l, visited, inside⟩ : ∃ a l, (a, l) ∈ (t.leftChildren.map TreeNode.toPublicNode).spine ++
      (t.rightChildren.map TreeNode.toPublicNode).spine ∧ x ∈ l.inorder := by
    have whole := inX
    rw [inorder_eq_spine, inorder_eq_spine (t.rightChildren.map _), ← List.flatMap_append] at whole
    obtain ⟨⟨a, l⟩, visited, here⟩ := List.mem_flatMap.mp whole
    rcases List.mem_append.mp here with inside | self
    · exact ⟨a, l, visited, inside⟩
    · obtain rfl := List.mem_singleton.mp self
      exact absurd ((rows.rightward_iff inX).mpr ⟨l, visited⟩) apart
  obtain ⟨r, sub⟩ : ∃ r, SubIn a l r (t.leftChildren.map TreeNode.toPublicNode)
      (t.rightChildren.map TreeNode.toPublicNode) := by
    rcases List.mem_append.mp visited with inl | inr
    · obtain ⟨r, sub, -⟩ := sub_of_mem_spine inl
      exact ⟨r, Or.inl sub⟩
    · obtain ⟨r, sub, -⟩ := sub_of_mem_spine inr
      exact ⟨r, Or.inr sub⟩
  have inside' := rows.sibling_mem sub inside inY tied.1.symm tied.2.1.symm
  obtain ⟨before, after, split⟩ := sub.split
  rw [FugueTree.inorder_public] at inX inY split
  have part : l.inorder.Sublist t.nodes := by
    rw [split]
    exact ((List.sublist_append_left ..).trans (List.sublist_append_right ..)).trans
      (List.sublist_append_left ..)
  have swapped : ∀ u v : Node, u ∈ l.inorder → v ∈ l.inorder → u.Tied v → ¬ Before t.nodes u v := by
    intro u v inU inV tied here
    have late := seeded.arranged.rows (a, l) visited u v
      (here.restrict nodup part inU inV) ⟨tied.1, tied.2.1⟩
    exact late.asymm seeded.nodup (seeded.arrived u v (same ▸ here) tied)
  rcases before_total inX inY other with here | here
  · exact swapped x y inside inside' tied here
  · exact swapped y x inside' inside tied.symm here

end Order

end Seeding

/-- For every reachable engine, whatever calls led to it: a new engine that is seeded with its nodes
reproduces them exactly when all tied siblings are reached from the root by right links. -/
theorem seed_reproduces {e : Engine} (reachable : e.Reachable) (replicaId : Nat) :
    (∃ e', seedEngineFromSnapshot replicaId e.nodes = .ok e' ∧ Reproduces e.nodes e') ↔
      TiesRightward e.nodes := by
  have sound := reachable.sound
  have shown : e.nodes = e.tree.nodes := sound.wf.toArray_eq
  obtain ⟨e', history, seeds, seeded⟩ := Seeding.seed_spec replicaId sound.wf reachable.marked
  rw [shown]
  constructor
  · rintro ⟨e'', seeds', reproduces⟩
    obtain rfl := Except.ok.inj (seeds.symm.trans seeds')
    exact seeded.ties sound.wf (seeded.built.nodes_eq.symm.trans reproduces.nodes)
  · intro ties
    refine ⟨e', seeds, ?_, seeded.empty, seeded.clock⟩
    exact seeded.built.nodes_eq.trans (seeded.nodes_eq sound.wf reachable.marked ties)

/-- Two characters of one replica at the start of a document. -/
def startedTwice : List Call :=
  [.applyRemote (.insert ⟨⟨1, 1⟩, 97, none, .R, false⟩) none,
    .applyRemote (.insert ⟨⟨2, 1⟩, 98, none, .R, false⟩) none]

/-- They are tied and keep their order. -/
theorem seed_reproduces_startedTwice : ∃ e, Run.run call (Engine.new 3) startedTwice = .ok e ∧
    e.nodes.map Node.value = [97, 98] ∧
    ∃ e', seedEngineFromSnapshot 3 e.nodes = .ok e' ∧ Reproduces e.nodes e' := by
  obtain ⟨e, ran, checked⟩ := Run.exists_of_ends (Run.run call (Engine.new 3) startedTwice)
    (fun e => decide (e.nodes.map Node.value = [97, 98] ∧ ∀ n ∈ e.nodes, n.parent = none)) (by decide)
  obtain ⟨values, orphans⟩ := of_decide_eq_true checked
  exact ⟨e, ran, values, (seed_reproduces ⟨3, _, ran⟩ 3).mpr fun x member y _ _ _ =>
    .root (orphans x member)⟩

/-- A replica types before a character, deletes what it typed, collects it and types there again. -/
def retyped : List Call :=
  [.applyRemote (.insert ⟨⟨1, 1⟩, 97, none, .R, false⟩) none, .edit (.insert 0 98 false),
    .edit (.delete 0 1), .setDeleteContext ⟨3, 2⟩ ⟨2, 0⟩,
    .collect 3 ⟨2000, 1000, 5000, none, none⟩, .edit (.insert 0 99 false)]

/-- The same operations at a replica that did not collect the first character. -/
def readRetyped : List Call :=
  [.applyRemote (.insert ⟨⟨1, 1⟩, 97, none, .R, false⟩) none,
    .applyRemote (.insert ⟨⟨2, 2⟩, 98, some ⟨1, 1⟩, .L, false⟩) none,
    .applyRemote (.delete ⟨⟨3, 2⟩, ⟨2, 2⟩⟩) none,
    .applyRemote (.insert ⟨⟨4, 2⟩, 99, some ⟨1, 1⟩, .L, false⟩) none]

/-- The second character is inserted where the first one was. -/
example : (Run.run call (Engine.new 2) retyped).toOption.map (fun e => e.nodes.map Node.toInsert) =
    some [⟨⟨4, 2⟩, 99, some ⟨1, 1⟩, .L, false⟩, ⟨⟨1, 1⟩, 97, none, .R, false⟩] := by decide

/-- Seeding puts the typed character before the tombstone that stood before it. -/
theorem seed_swaps : ¬ ∀ (e : Engine) (replicaId : Nat), e.Reachable →
    ∃ e', seedEngineFromSnapshot replicaId e.nodes = .ok e' ∧ Reproduces e.nodes e' := by
  intro reproduced
  obtain ⟨e, ran, checked⟩ := Run.exists_of_ends (Run.run call (Engine.new 3) readRetyped)
    (fun e => decide (Run.ends (seedEngineFromSnapshot 3 e.nodes)
      (fun e' => decide (e'.nodes ≠ e.nodes)) = true)) (by decide)
  obtain ⟨e', seeds, other⟩ := Run.exists_of_ends _ _ (of_decide_eq_true checked)
  obtain ⟨e'', seeds', reproduces⟩ := reproduced e 3 ⟨3, _, ran⟩
  obtain rfl := Except.ok.inj (seeds.symm.trans seeds')
  exact of_decide_eq_true other reproduces.nodes

end ConfluenceEditor
