/-
What a collection takes out.

A node is collectible when it and everything below it is eligible: deleted, by an operation whose
sequence number is recorded and not past the frontier, and outside the undo horizon. A sweep that
runs to its end takes out exactly the collectible nodes, because they are the greatest set of
candidates that is closed under children; a sweep that is cut short changes nothing
(`collect_exact`). The deletion context of a node goes with it, and since a deletion has one target,
no node that stays loses its own.
-/

import ConfluenceEditor.Replication.Provenance
import ConfluenceEditor.Replication.Seeding

namespace ConfluenceEditor

open SidedForest SidedForest.Forest

namespace FugueTree

/-- Every stored size, the root's included, is the one that counting again gives. -/
structure Counted (t : FugueTree) : Prop where
  visible : t.leftChildren.Sized TreeNode.visibleWeight TreeNode.visibleSize ∧
    t.rightChildren.Sized TreeNode.visibleWeight TreeNode.visibleSize
  visibleRoot : t.visibleSize = t.leftChildren.total TreeNode.visibleWeight +
    t.rightChildren.total TreeNode.visibleWeight
  all : t.leftChildren.Sized TreeNode.totalWeight TreeNode.totalSize ∧
    t.rightChildren.Sized TreeNode.totalWeight TreeNode.totalSize
  allRoot : t.totalSize = t.leftChildren.total TreeNode.totalWeight +
    t.rightChildren.total TreeNode.totalWeight

theorem WF.counted {t : FugueTree} (wf : t.WF) : t.Counted :=
  ⟨wf.visibleSized, wf.visibleRoot, wf.totalSized, wf.totalRoot⟩

/-- Unlinking a node returns that node. -/
theorem WF.remove_eq {t t' : FugueTree} (wf : t.WF) {n : Node} (member : n ∈ t.nodes)
    {removedNode : Option Node} (removed : t.remove n.id = .ok (removedNode, t')) :
    removedNode = some n ∧ t.tryRemoveLeaf n.id = some t' := by
  have here : t.nodeByIdentifier n.id = some n := wf.nodeByIdentifier_eq_some_iff.mpr ⟨member, rfl⟩
  unfold remove at removed
  split at removed
  · rename_i absent
    rw [nodeByIdentifier, absent] at here
    cases here
  · rename_i node l r found
    rw [nodeByIdentifier, found, Option.map_some] at here
    split at removed
    · rename_i t₁ unlinked
      obtain ⟨rfl, rfl⟩ := Prod.mk.inj (Except.ok.inj removed)
      exact ⟨here, unlinked⟩
    · cases removed

end FugueTree

namespace Engine

variable {e e' e'' : Engine} {frontier : Int} {options : CollectOptions}

/-! ### Eligible and collectible nodes -/

/-- A tombstone that is causally stable and past one of the two undo horizons. -/
def Eligible (e : Engine) (frontier : Int) (options : CollectOptions) (n : Node) : Prop :=
  n.deleted = true ∧ ∃ deletedBy context, n.deletedBy = some deletedBy ∧
    e.deleteContext deletedBy = some context ∧ (context.seq : Int) ≤ frontier ∧
    (options.maxAgeMs ≤ options.nowMs - context.atMs ∨
      options.maxOpsPerReplica ≤
        ((e.maxCounterByReplica deletedBy.r).getD deletedBy.c : Int) - deletedBy.c)

theorem isCandidate_iff {n : Node} :
    e.isCandidate frontier options n = true ↔ e.Eligible frontier options n := by
  unfold isCandidate Eligible
  cases n.deleted with
  | false => simp
  | true =>
      cases n.deletedBy with
      | none => simp
      | some d =>
          cases context : e.deleteContext d with
          | none => simp [context]
          | some c =>
              by_cases late : (c.seq : Int) > frontier
              · simp [context, late]
              · simp [context, late, not_lt.mp late]

/-- The node is `n` or stands somewhere below it. -/
inductive Descends (nodes : List Node) (n : Node) : Node → Prop
  | self : Descends nodes n n
  | child {p m : Node} (above : Descends nodes n p) (member : m ∈ nodes)
      (under : m.parent = some p.id) : Descends nodes n m

/-- The node and everything below it is eligible. -/
def Collectible (e : Engine) (frontier : Int) (options : CollectOptions) (n : Node) : Prop :=
  ∀ m, Descends e.nodes n m → e.Eligible frontier options m

/-- Below a node that goes, everything goes. -/
theorem Descends.gone {nodes : List Node} {gone : List Identifier} (closed : ClosedBelow nodes gone)
    {n m : Node} (descends : Descends nodes n m) (taken : n.id ∈ gone) : m.id ∈ gone := by
  induction descends with
  | self => exact taken
  | child above member under ih => exact closed _ member _ under ih

theorem Descends.mem {nodes : List Node} {n m : Node} (descends : Descends nodes n m)
    (member : n ∈ nodes) : m ∈ nodes := by
  cases descends with
  | self => exact member
  | child above inside under => exact inside

/-- What starts one step below a node is below it. -/
theorem Descends.lift {nodes : List Node} {n c m : Node} (inside : c ∈ nodes)
    (under : c.parent = some n.id) (descends : Descends nodes c m) : Descends nodes n m := by
  induction descends with
  | self => exact .child .self inside under
  | child above member parent ih => exact .child ih member parent

/-! ### The deletion contexts -/

/-- The contexts of the nodes that went are forgotten, and no other one. -/
structure Forgets (e e' : Engine) : Prop where
  sub : ∀ n ∈ e'.tree.nodes, n ∈ e.tree.nodes
  forgotten : ∀ n ∈ e.tree.nodes, n ∉ e'.tree.nodes → ∀ d, n.deletedBy = some d →
    e'.deleteContext d = none
  kept : ∀ d, (∀ n ∈ e.tree.nodes, n ∉ e'.tree.nodes → n.deletedBy ≠ some d) →
    e'.deleteContext d = e.deleteContext d

theorem forgets_self (e : Engine) : Forgets e e :=
  ⟨fun _ member => member, fun _ member gone => absurd member gone, fun _ _ => rfl⟩

theorem Forgets.none_stays (forgets : Forgets e e') {d : Identifier}
    (forgotten : e.deleteContext d = none) : e'.deleteContext d = none := by
  by_cases went : ∃ n ∈ e.tree.nodes, n ∉ e'.tree.nodes ∧ n.deletedBy = some d
  · obtain ⟨n, member, gone, dot⟩ := went
    exact forgets.forgotten n member gone d dot
  · rw [forgets.kept d fun n member gone dot => went ⟨n, member, gone, dot⟩]
    exact forgotten

theorem Forgets.trans (first : Forgets e e') (second : Forgets e' e'') : Forgets e e'' where
  sub n member := first.sub n (second.sub n member)
  forgotten n member gone d dot := by
    by_cases between : n ∈ e'.tree.nodes
    · exact second.forgotten n between gone d dot
    · exact second.none_stays (first.forgotten n member between d dot)
  kept d spared := by
    rw [second.kept d fun n member gone => spared n (first.sub n member) gone]
    exact first.kept d fun n member gone => spared n member fun there => gone (second.sub n there)

/-- Unlinking one node. -/
theorem Sound.forgets_remove (sound : e.Sound) {n : Node} (member : n ∈ e.tree.nodes)
    {tree : FugueTree} (removed : e.tree.tryRemoveLeaf n.id = some tree) :
    Forgets e { e with
      tree
      deleteContext := match n.deletedBy with
        | some deletedBy => Function.update e.deleteContext deletedBy none
        | none => e.deleteContext } := by
  obtain ⟨-, before, m, after, named, old, new⟩ := sound.wf.tryRemoveLeaf removed
  obtain rfl : m = n := sound.wf.eq_of_id_eq (by simp [old]) member named
  have distinct : (before ++ after).Nodup ∧ m ∉ before ++ after := by
    have whole := sound.wf.nodup.of_map
    rw [old, List.nodup_middle] at whole
    exact ⟨(List.nodup_cons.mp whole).2, (List.nodup_cons.mp whole).1⟩
  have went : ∀ x ∈ e.tree.nodes, x ∉ tree.nodes → x = m := by
    intro x there gone
    rw [old] at there
    rw [new] at gone
    simp only [List.mem_append, List.mem_cons] at there gone
    tauto
  have absent : m ∉ tree.nodes := new ▸ distinct.2
  refine ⟨fun x there => ?_, fun x there gone d dot => ?_, fun d spared => ?_⟩
  · rw [show ({ e with tree, deleteContext := _ } : Engine).tree.nodes = _ from new] at there
    rw [old]
    simp only [List.mem_append, List.mem_cons] at there ⊢
    tauto
  · obtain rfl := went x there gone
    simp only [dot, Function.update_self]
  · have other := spared m member absent
    cases dot : m.deletedBy with
    | none => rfl
    | some d' =>
        have apart : d ≠ d' := fun same => other (same ▸ dot)
        exact Function.update_of_ne apart _ _

theorem removePass_forgets {allNodes : List Node} (keys : List Identifier) :
    ∀ {e : Engine} {remaining remaining' : List Identifier} {flag flag' : Bool}, e.Sound →
      removePass allNodes keys e remaining flag = .ok (e', remaining', flag') →
      e'.Sound ∧ Forgets e e' := by
  induction keys with
  | nil =>
      intro e remaining remaining' flag flag' sound ran
      obtain ⟨rfl, -⟩ := Prod.mk.inj (Except.ok.inj ran)
      exact ⟨sound, forgets_self _⟩
  | cons key keys ih =>
      intro e remaining remaining' flag flag' sound ran
      unfold removePass at ran
      split at ran
      · exact ih sound ran
      · rename_i node found
        split_ifs at ran
        · exact ih sound ran
        · obtain ⟨⟨removedNode, tree⟩, removed, ran⟩ := Throwing.ok_of_bind ran
          obtain ⟨member, -⟩ := sound.wf.nodeByIdentifier_eq_some_iff.mp found
          obtain ⟨rfl, unlinked⟩ := sound.wf.remove_eq member removed
          have sound' : ∀ deleteContext, Sound { e with tree, deleteContext } := fun _ =>
            sound.move ⟨.remove node.id unlinked, rfl, le_refl _, fun _ known => Or.inl known⟩
          obtain ⟨kept, forgets⟩ := ih (sound' _) ran
          exact ⟨kept, (sound.forgets_remove member unlinked).trans forgets⟩

theorem removeLoop_forgets {allNodes : List Node} (passes : Nat) :
    ∀ {e : Engine} {remaining : List Identifier}, e.Sound →
      removeLoop allNodes passes e remaining = .ok e' → Forgets e e' := by
  induction passes with
  | zero =>
      intro e remaining sound ran
      obtain rfl := Except.ok.inj ran
      exact forgets_self _
  | succ passes ih =>
      intro e remaining sound ran
      unfold removeLoop at ran
      split_ifs at ran
      · obtain rfl := Except.ok.inj ran
        exact forgets_self _
      · obtain ⟨⟨e₁, remaining₁, flag⟩, passed, ran⟩ := Throwing.ok_of_bind ran
        obtain ⟨sound₁, first⟩ := removePass_forgets remaining sound passed
        simp only at ran
        split_ifs at ran
        · exact first.trans (ih sound₁ ran)
        · obtain rfl := Except.ok.inj ran
          exact first

theorem Sound.collect_forgets (sound : e.Sound) {result : CollectResult}
    (ran : e.collect frontier options = .ok (result, e')) : Forgets e e' := by
  unfold collect at ran
  simp only at ran
  split_ifs at ran
  · obtain ⟨-, rfl⟩ := Prod.mk.inj (Except.ok.inj ran)
    exact forgets_self _
  · obtain ⟨-, rfl⟩ := Prod.mk.inj (Except.ok.inj ran)
    exact forgets_self _
  · obtain ⟨-, rfl⟩ := Prod.mk.inj (Except.ok.inj ran)
    exact forgets_self _
  · obtain ⟨e₁, looped, done⟩ := Throwing.ok_of_bind ran
    obtain ⟨-, rfl⟩ := Prod.mk.inj (Except.ok.inj done)
    exact removeLoop_forgets _ sound looped

/-! ### The collection -/

/-- A complete collection: exactly the collectible nodes go, and what stays is as it was. -/
structure Collection (e e' : Engine) (frontier : Int) (options : CollectOptions)
    (result : CollectResult) : Prop where
  exact : ∀ n, n ∈ e'.nodes ↔ n ∈ e.nodes ∧ ¬ e.Collectible frontier options n
  order : e'.nodes.Sublist e.nodes
  count : e.nodes.length = e'.nodes.length + result.collectedCount
  parents : ∀ n ∈ e'.nodes, ∀ p, n.parent = some p → ∃ m ∈ e'.nodes, m.id = p
  sizes : e'.tree.Counted
  contexts : ∀ d, e'.deleteContext d ≠ e.deleteContext d →
    ∃ n ∈ e.nodes, n ∉ e'.nodes ∧ n.deletedBy = some d
  keptContexts : ∀ n ∈ e'.nodes, ∀ d, n.deletedBy = some d → e'.deleteContext d = e.deleteContext d
  frame : ∃ tree deleteContext, e' = { e with tree, deleteContext }

/-- What goes is what is collectible. -/
theorem CollectedBy.mem_gone (sound : e.Sound) {result : CollectResult} {gone : List Identifier}
    (swept : CollectedBy e e' frontier options result gone) (complete : result.incomplete = false)
    {n : Node} (member : n ∈ e.tree.nodes) :
    n.id ∈ gone ↔ e.Collectible frontier options n := by
  have list : e.nodes = e.tree.nodes := sound.wf.toArray_eq
  constructor
  · intro taken m descends
    rw [list] at descends
    obtain ⟨x, inside, same, candidate⟩ :=
      swept.candidates m.id (descends.gone swept.collected.closed taken)
    obtain rfl := sound.wf.eq_of_id_eq inside (descends.mem member) same
    exact isCandidate_iff.mp candidate
  · intro collectible
    refine swept.greatest complete
      (fun id => ∃ x ∈ e.tree.nodes, x.id = id ∧ e.Collectible frontier options x) ?_ ?_ n.id
      ⟨n, member, rfl, collectible⟩
    · rintro id ⟨x, inside, rfl, all⟩
      exact ⟨x, inside, rfl, isCandidate_iff.mpr (all x .self)⟩
    · rintro m inside p under ⟨x, there, rfl, all⟩
      exact ⟨m, inside, rfl, fun y below => all y (below.lift (list ▸ inside) under)⟩

theorem Reachable.collection (reachable : e.Reachable) {result : CollectResult}
    {gone : List Identifier} (ran : e.collect frontier options = .ok (result, e'))
    (swept : CollectedBy e e' frontier options result gone)
    (complete : result.incomplete = false) : Collection e e' frontier options result := by
  have sound := reachable.sound
  have sound' : e'.Sound := sound.moves swept.collected.moves
  have forgets := sound.collect_forgets ran
  have before : e.nodes = e.tree.nodes := sound.wf.toArray_eq
  have after : e'.nodes = e'.tree.nodes := sound'.wf.toArray_eq
  have list := swept.collected.nodes sound
  have exact : ∀ n, n ∈ e'.nodes ↔ n ∈ e.nodes ∧ ¬ e.Collectible frontier options n := by
    intro n
    rw [before, after, list, List.mem_filter, decide_eq_true_iff]
    exact and_congr_right fun member => not_congr (swept.mem_gone sound complete member)
  refine ⟨exact, ?_, ?_, ?_, sound'.wf.counted, fun d changed => ?_, fun n member d dot => ?_,
    swept.collected.frame⟩
  · rw [before, after, list]
    exact List.filter_sublist
  · -- the identifiers that went are those of distinct nodes
    have taken : (e.tree.nodes.filter fun n => n.id ∈ gone).length = gone.length := by
      have same : ((e.tree.nodes.filter fun n => n.id ∈ gone).map Node.id).Perm gone := by
        refine (List.perm_ext_iff_of_nodup
          (sound.wf.nodup.sublist (List.filter_sublist.map Node.id)) swept.nodup).mpr fun id => ?_
        simp only [List.mem_map, List.mem_filter, decide_eq_true_eq]
        constructor
        · rintro ⟨n, ⟨-, inside⟩, rfl⟩
          exact inside
        · intro inside
          obtain ⟨n, member, rfl, -⟩ := swept.candidates id inside
          exact ⟨n, ⟨member, inside⟩, rfl⟩
      rw [← same.length_eq, List.length_map]
    rw [before, after, list, swept.count, ← taken,
      List.length_eq_length_filter_add (fun n : Node => decide (n.id ∉ gone))]
    simp
  · rw [after]
    exact fun n member p under => sound'.wf.exists_parent member under
  · rw [before, after]
    by_contra none
    exact changed (forgets.kept d fun n member gone dot => none ⟨n, member, gone, dot⟩)
  · rw [after] at member
    refine forgets.kept d fun m there gone dot' => ?_
    have same := reachable.marked.single n (forgets.sub n member) d dot m there dot'
    obtain rfl := sound.wf.eq_of_id_eq there (forgets.sub n member) same
    exact gone member

/-- In every reachable engine a collection returns. It takes out exactly the eligible tombstones
below which everything is eligible; when the budget ended the sweep early it changes nothing; and
without a budget that does not happen. -/
theorem collect_exact (reachable : e.Reachable) (frontier : Int) (options : CollectOptions) :
    ∃ result e', e.collect frontier options = .ok (result, e') ∧
      (result.incomplete = false → Collection e e' frontier options result) ∧
      (result.incomplete = true → e' = e ∧ result.collectedCount = 0) ∧
      (options.budgetMs = none ∨ options.clock = none → result.incomplete = false) := by
  obtain ⟨result, e', gone, ran, swept⟩ := reachable.sound.collect_by frontier options
  refine ⟨result, e', ran, reachable.collection ran swept, fun stopped => ?_, fun unbounded => ?_⟩
  · obtain ⟨same, nothing⟩ := swept.incomplete stopped
    exact ⟨same, by rw [swept.count, nothing, List.length_nil]⟩
  · refine swept.complete fun round => ?_
    unfold CollectOptions.exhausted
    rcases unbounded with noBudget | noClock
    · rw [noBudget]
    · rw [noClock]
      cases options.budgetMs <;> rfl

/-- Two characters typed, the second one deleted, and the deletion confirmed as the first row. -/
def lastDeleted : List Call :=
  [.edit (.insert 0 97 false), .edit (.insert 1 98 false), .edit (.delete 1 1),
    .setDeleteContext ⟨3, 1⟩ ⟨1, 0⟩]

theorem collect_exact_lastDeleted : ∃ e, Run.run call (new 1) lastDeleted = .ok e ∧
    ∃ result e', e.collect 1 ⟨10, 5, 100, none, none⟩ = .ok (result, e') ∧
      e.nodes.length = 2 ∧ e'.nodes.length = 1 ∧
      Collection e e' 1 ⟨10, 5, 100, none, none⟩ result := by
  obtain ⟨e, ran, checked⟩ := Run.exists_of_ends (Run.run call (new 1) lastDeleted)
    (fun e => decide (e.nodes.length = 2) &&
      Run.ends (e.collect 1 ⟨10, 5, 100, none, none⟩) fun r => decide (r.1.collectedCount = 1))
    (by decide)
  rw [Bool.and_eq_true, decide_eq_true_iff] at checked
  obtain ⟨result, e', collected, exact, -, complete⟩ :=
    collect_exact ⟨1, _, ran⟩ 1 ⟨10, 5, 100, none, none⟩
  obtain ⟨r, collected', count⟩ := Run.exists_of_ends _ _ checked.2
  obtain rfl := Except.ok.inj (collected.symm.trans collected')
  have collection := exact (complete (Or.inl rfl))
  have one : result.collectedCount = 1 := of_decide_eq_true count
  refine ⟨e, ran, result, e', collected, checked.1, ?_, collection⟩
  have lengths := collection.count
  omega

end Engine

end ConfluenceEditor
