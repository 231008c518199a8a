/-
Going on from an image.

An engine that is seeded from the image of a collecting engine remembers less than an engine that has
replayed the whole log: the collected nodes are gone, and so are the operations that left no trace in
the image. `Resumed` relates the two: the trees agree up to the collected nodes, nothing waits, and
the seeded engine knows no operation that the other one does not know. Every later operation of the
log that names no collected node does the same to both (`Resumed.deliver`).
-/

import ConfluenceEditor.Engine.Transparent
import ConfluenceEditor.Replication.Seeding

namespace ConfluenceEditor

open SidedForest SidedForest.Forest

/-! ### The node list determines the rows -/

theorem FugueTree.WF.public_eq {t t' : FugueTree} (wf : t.WF) (wf' : t'.WF)
    (same : t.nodes = t'.nodes) :
    t.leftChildren.map TreeNode.toPublicNode = t'.leftChildren.map TreeNode.toPublicNode ∧
      t.rightChildren.map TreeNode.toPublicNode = t'.rightChildren.map TreeNode.toPublicNode := by
  apply wf.rows.eq_of_before wf'.rows
  · intro n
    rw [inorder_public, inorder_public, same]
  · intro x y before _ _
    rwa [inorder_public, same, ← inorder_public]

namespace Engine

/-! ### What an application reads -/

variable {e f e₁ : Engine} {op : Operation}

/-- The application of an operation by its kind reads the tree, and writes the tree and the recorded
contexts. -/
theorem applyKind_reads (tree : f.tree = e.tree) (applied : e.applyKind op = .ok e₁) :
    ∃ tree' contexts contexts', e₁ = { e with tree := tree', deleteContext := contexts } ∧
      f.applyKind op = .ok { f with tree := tree', deleteContext := contexts' } := by
  cases op with
  | insert op =>
      obtain ⟨tree', attached, done⟩ := Throwing.ok_of_bind applied
      obtain rfl := Except.ok.inj done
      refine ⟨tree', e.deleteContext, f.deleteContext, rfl, ?_⟩
      rw [applyKind, applyInsert, tree, attached]
      rfl
  | delete op =>
      simp only [applyKind, applyDelete] at applied ⊢
      rw [tree]
      split at applied
      · cases applied
      · obtain ⟨tree', set, done⟩ := Throwing.ok_of_bind applied
        obtain rfl := Except.ok.inj done
        refine ⟨tree', e.deleteContext, f.deleteContext, rfl, ?_⟩
        simp only [set, bind, Except.bind]
  | undelete op =>
      simp only [applyKind, applyUndelete] at applied ⊢
      rw [tree]
      cases found : e.tree.nodeByIdentifier op.target with
      | none =>
          rw [found] at applied
          cases applied
      | some n =>
          simp only [found] at applied ⊢
          cases dot : n.deletedBy with
          | none =>
              simp only [dot] at applied ⊢
              obtain rfl := Except.ok.inj applied
              exact ⟨e.tree, e.deleteContext, f.deleteContext, rfl, by rw [← tree]⟩
          | some d =>
              simp only [dot] at applied ⊢
              by_cases own : d.r = op.id.r
              · rw [if_pos own] at applied ⊢
                obtain ⟨tree', set, done⟩ := Throwing.ok_of_bind applied
                obtain rfl := Except.ok.inj done
                refine ⟨tree', _, Function.update f.deleteContext d none, rfl, ?_⟩
                rw [set]
                rfl
              · rw [if_neg own] at applied ⊢
                obtain rfl := Except.ok.inj applied
                exact ⟨e.tree, e.deleteContext, f.deleteContext, rfl, by rw [← tree]⟩

theorem doApply_reads (tree : f.tree = e.tree) (done : e.doApply op = .ok e₁) :
    ∃ f₁, f.doApply op = .ok f₁ ∧ f₁.tree = e₁.tree ∧ f₁.pending = f.pending ∧
      f₁.applied = op.id :: f.applied := by
  obtain ⟨counters, noted⟩ := noteCounter_eq (e.observe op.id.c) op.id
  obtain ⟨counters', noted'⟩ := noteCounter_eq (f.observe op.id.c) op.id
  obtain ⟨e₂, kind, marked⟩ := Throwing.ok_of_bind done
  obtain rfl := Except.ok.inj marked
  rw [noted] at kind
  set observed : Engine := { f.observe op.id.c with maxCounterByReplica := counters' }
  obtain ⟨tree', contexts, contexts', rfl, other⟩ :=
    applyKind_reads (f := observed) (by exact tree) kind
  refine ⟨markApplied { observed with tree := tree', deleteContext := contexts' } op.id, ?_, rfl, rfl,
    rfl⟩
  rw [doApply, noted', other]
  rfl

/-- A fresh operation that is ready is applied at once, and nothing waits for it. -/
theorem applyRemote_quiet {context : Option DeleteContext} {contexts : Identifier → Option DeleteContext}
    (recorded : e.recordContext op context = { e with deleteContext := contexts })
    (fresh : op.id ∉ e.applied) (ready : e.ready op = true)
    (done : { e with deleteContext := contexts }.doApply op = .ok e₁) (quiet : e₁.pending = []) :
    e.applyRemote op context = .ok (false, e₁) := by
  have unknown : { e with deleteContext := contexts }.hasApplied op.id = false :=
    decide_eq_false fresh
  have next : { e with deleteContext := contexts }.ready op = true := ready
  have drained : e₁.drain = .ok e₁ := by
    rw [drain, quiet]
    simp only [drainLoop, quiet, drainPass, bind, Except.bind, Bool.false_eq_true, if_false]
    rw [← quiet]
  rw [applyRemote, recorded]
  simp [unknown, next, done, drained, bind, Except.bind]

end Engine

/-- In a causal list of distinct operations, the next one is new and ready. -/
theorem Built.next {e : Engine} {history later : List Operation} {op : Operation}
    (built : Built e history) (nodup : ((history ++ [op] ++ later).map Operation.id).Nodup)
    (causal : Causal (history ++ [op] ++ later)) : op.id ∉ e.applied ∧ e.ready op = true := by
  obtain ⟨-, met⟩ := causal.of_append.of_snoc
  refine ⟨fun known => ?_, built.ready_iff.mpr met⟩
  obtain ⟨old, member, same⟩ := (built.applied op.id).mp known
  rw [List.map_append, List.map_append, List.nodup_append, List.nodup_append] at nodup
  exact nodup.1.2.2 old.id (List.mem_map_of_mem member) op.id (by simp) same

namespace Engine

/-! ### The relation -/

/-- The second engine went on from an image of the first one, in which the nodes `gone` were
missing. -/
structure Resumed (gone : List Identifier) (g w : Engine) : Prop where
  seen : ∃ e, Thinned gone g e ∧ w.tree = e.tree
  quiet : g.pending = []
  quiet' : w.pending = []
  remembers : ∀ id ∈ w.applied, id ∈ g.applied

namespace Resumed

variable {gone : List Identifier} {g w : Engine} {history : List Operation} {op : Operation}

/-- One operation of the log. -/
theorem deliver (resumed : Resumed gone g w) (fresh : op.id ∉ g.applied) (ready : g.ready op = true)
    (free : FreeOf gone op) (context context' : Option DeleteContext) :
    ∃ g₁ w₁, g.applyRemote op context = .ok (false, g₁) ∧
      w.applyRemote op context' = .ok (false, w₁) ∧ Resumed gone g₁ w₁ := by
  obtain ⟨e, thinned, tree⟩ := resumed.seen
  obtain ⟨contexts, recorded⟩ := Built.recordContext_eq g op context
  obtain ⟨contexts', recorded'⟩ := Built.recordContext_eq w op context'
  have start : Thinned gone { g with deleteContext := contexts } e :=
    thinned.congr rfl rfl rfl rfl (le_refl _) thinned.clock thinned.pending
  obtain ⟨g₁, e₁, done, done', related, pending⟩ := start.doApply fresh ready free
  obtain ⟨w₁, resumes, tree₁, pending', applied'⟩ :=
    doApply_reads (f := { w with deleteContext := contexts' }) tree done'
  have quiet : g₁.pending = [] := pending.trans resumed.quiet
  have quiet' : w₁.pending = [] := pending'.trans resumed.quiet'
  have fresh' : op.id ∉ w.applied := fun member => fresh (resumed.remembers _ member)
  have ready' : w.ready op = true := by
    rw [← ready, ← thinned.ready free]
    show Engine.ready w op = Engine.ready e op
    unfold Engine.ready isOriginPresent
    rw [tree]
  refine ⟨g₁, w₁, applyRemote_quiet recorded fresh ready done quiet,
    applyRemote_quiet recorded' fresh' ready' resumes quiet', ⟨e₁, related, tree₁⟩, quiet, quiet', ?_⟩
  intro id member
  rw [applied'] at member
  have grown : g₁.applied = op.id :: g.applied := by
    obtain ⟨f₁, again, -, -, applied⟩ := doApply_reads rfl done
    obtain rfl := Except.ok.inj (again.symm.trans done)
    exact applied
  rw [grown]
  rcases List.mem_cons.mp member with rfl | old
  · exact List.mem_cons_self
  · exact List.mem_cons_of_mem _ (resumed.remembers id old)

/-- The rest of the log. -/
theorem suffix (resumed : Resumed gone g w) (built : Built g history)
    {items : List (Operation × Option DeleteContext)}
    (nodup : ((history ++ items.map Prod.fst).map Operation.id).Nodup)
    (causal : Causal (history ++ items.map Prod.fst))
    (free : ∀ op ∈ items.map Prod.fst, FreeOf gone op) :
    ∃ g' w', g.applyAll (items.map Prod.fst) = .ok g' ∧ w.applyEach items = .ok w' ∧
      Resumed gone g' w' := by
  induction items generalizing g w history with
  | nil => exact ⟨g, w, rfl, rfl, resumed⟩
  | cons item items ih =>
      obtain ⟨op, context⟩ := item
      rw [List.map_cons, List.append_cons] at nodup causal
      obtain ⟨fresh, ready⟩ := built.next nodup causal
      obtain ⟨g₁, w₁, applied, applied', resumed₁⟩ :=
        resumed.deliver fresh ready (free op List.mem_cons_self) none context
      obtain ⟨g₂, again, extended⟩ := built.applyRemote_ready resumed.quiet
        (decide_eq_false fresh) ready none
      obtain ⟨-, rfl⟩ := Prod.mk.inj (Except.ok.inj (again.symm.trans applied))
      obtain ⟨g', w', ran, ran', related⟩ := ih resumed₁ extended.built nodup causal
        fun x member => free x (List.mem_cons_of_mem _ member)
      refine ⟨g', w', ?_, ?_, related⟩
      · rw [List.map_cons, applyAll_cons, applied]
        exact ran
      · rw [applyEach, applied']
        exact ran'

/-- An engine that shows the image of a collecting engine goes on from an engine that shows what the
collecting one would show without its collections. -/
theorem start {full live : Engine} {collected : List Identifier}
    (thinned : Thinned collected full live) (same : full.tree.nodes = g.tree.nodes) (sound : g.Sound)
    (quiet : g.pending = []) (wf : w.tree.WF) (image : w.tree.nodes = live.tree.nodes)
    (quiet' : w.pending = []) (remembers : ∀ id ∈ w.applied, id ∈ g.applied) :
    Resumed (collected.filter fun id => g.tree.hasIdentifier id) g w := by
  have present : ∀ n ∈ g.tree.nodes, g.tree.hasIdentifier n.id = true := fun n member =>
    sound.wf.hasIdentifier_iff.mpr ⟨n, member, rfl⟩
  have gone_iff : ∀ n ∈ g.tree.nodes,
      (n.id ∈ collected.filter fun id => g.tree.hasIdentifier id) ↔ n.id ∈ collected := by
    intro n member
    rw [List.mem_filter]
    exact and_iff_left (present n member)
  have old : ∀ n ∈ w.tree.nodes, n ∈ g.tree.nodes := fun n member =>
    same ▸ (thinned.mem_nodes.mp (image ▸ member)).1
  have pruned : FugueTree.Pruned (fun n => n.id ∉ collected) g.tree w.tree := by
    obtain ⟨left, right⟩ := thinned.sound.wf.public_eq sound.wf same
    obtain ⟨left', right'⟩ := wf.public_eq thinned.sound'.wf image
    constructor
    · rw [left', thinned.pruned.left, left]
    · rw [right', thinned.pruned.right, right]
  refine ⟨⟨{ w with applied := g.applied, clock := g.clock, pending := g.pending }, ?_, rfl⟩, quiet,
    quiet', remembers⟩
  refine
    { sound
      sound' := ⟨wf, fun n member => sound.known n (old n member), sound.clock⟩
      pruned := pruned.congr fun n member => by simp only [gone_iff n member]
      closed := ?_
      deleted := ?_
      known := ?_
      applied := rfl
      pending := rfl
      clock := rfl }
  · intro n member p under dropped
    rw [gone_iff n member]
    exact thinned.closed n (same ▸ member) p under (List.mem_filter.mp dropped).1
  · intro n member dropped
    exact thinned.deleted n (same ▸ member) ((gone_iff n member).mp dropped)
  · intro id dropped
    obtain ⟨n, member, rfl⟩ := sound.wf.hasIdentifier_iff.mp (List.mem_filter.mp dropped).2
    exact sound.known n member

/-- What the two engines show. -/
theorem nodes_eq (resumed : Resumed gone g w) :
    w.nodes = g.nodes.filter fun n => w.hasIdentifier n.id := by
  obtain ⟨e, thinned, tree⟩ := resumed.seen
  have same := thinned.nodes_eq
  unfold Engine.nodes Engine.hasIdentifier at same ⊢
  rwa [tree]

theorem text_eq (resumed : Resumed gone g w) : w.text = g.text := by
  obtain ⟨e, thinned, tree⟩ := resumed.seen
  rw [← thinned.text_eq]
  unfold text visible Engine.nodes
  rw [tree]

end Resumed

/-! ### A stream in the order of the log -/

theorem thinned_self {e : Engine} (sound : e.Sound) : Thinned [] e e where
  sound := sound
  sound' := sound
  pruned := FugueTree.pruned_self _ fun n _ => by simp
  closed := fun n _ p _ dropped => nomatch dropped
  deleted := fun n _ dropped => nomatch dropped
  known := fun id dropped => nomatch dropped
  applied := rfl
  pending := rfl
  clock := rfl

theorem resumed_self {g : Engine} (sound : g.Sound) (quiet : g.pending = []) : Resumed [] g g where
  seen := ⟨g, thinned_self sound, rfl⟩
  quiet := quiet
  quiet' := quiet
  remembers := fun _ => id

theorem Resumed.nodes_of_nil {g w : Engine} (resumed : Resumed [] g w) :
    w.tree.nodes = g.tree.nodes := by
  obtain ⟨e, thinned, tree⟩ := resumed.seen
  rw [tree, thinned.nodes]
  simp

end Engine

namespace Collector

open Engine

/-- The operations that a stream delivers. -/
def delivered (events : List CollectorEvent) : List Operation :=
  events.filterMap fun event => match event with
    | .deliver op _ => some op
    | _ => none

/-- The collecting engine is reached by calls of the engine's methods. -/
theorem reachable {replicaId : Nat} {events : List CollectorEvent} {s : Collector}
    (ran : Run.run Collector.step (Collector.init replicaId) events = .ok s) : s.engine.Reachable := by
  refine ⟨replicaId, Run.Reaches.invariant (P := fun s => Run.Reaches call (Engine.new replicaId)
    s.engine) ⟨events, ran⟩ (.refl _) fun s event s' reached moved => reached.trans ?_⟩
  cases event with
  | deliver op context =>
      obtain ⟨⟨buffered, e⟩, applied, done⟩ := Throwing.ok_of_bind moved
      obtain rfl := Except.ok.inj done
      refine .single (l := .applyRemote op context) ?_
      rw [call, applied]
      rfl
  | setDeleteContext id context =>
      obtain rfl := Except.ok.inj moved
      exact .single (l := .setDeleteContext id context) rfl
  | rejectPending id =>
      obtain rfl := Except.ok.inj moved
      exact .single (l := .rejectPending id) rfl
  | collect frontier options =>
      obtain ⟨⟨result, e⟩, collected, done⟩ := Throwing.ok_of_bind moved
      obtain rfl := Except.ok.inj done
      refine .single (l := .collect frontier options) ?_
      rw [call, collected]
      rfl

/-- A stream that delivers a causal list in its order does what a replay of the list does. -/
theorem in_order {s : Collector} {w : Engine} {history : List Operation}
    {events : List CollectorEvent} (resumed : Resumed [] s.engine w)
    (built : Built s.engine history)
    (nodup : ((history ++ delivered events).map Operation.id).Nodup)
    (causal : Causal (history ++ delivered events)) :
    ∃ s' w', Run.run Collector.step s (events.filter fun event => !event.isCollect) = .ok s' ∧
      w.applyAll (delivered events) = .ok w' ∧ Resumed [] s'.engine w' := by
  induction events generalizing s w history with
  | nil => exact ⟨s, w, rfl, rfl, resumed⟩
  | cons event events ih =>
      obtain ⟨e, thinned, tree⟩ := resumed.seen
      cases event with
      | deliver op context =>
          have split : delivered (.deliver op context :: events) = op :: delivered events := rfl
          rw [split, List.append_cons] at nodup causal
          obtain ⟨fresh, ready⟩ := built.next nodup causal
          obtain ⟨e₁, w₁, applied, applied', resumed₁⟩ :=
            resumed.deliver fresh ready (fun d _ => List.not_mem_nil) context none
          obtain ⟨e₂, again, extended⟩ := built.applyRemote_ready resumed.quiet
            (decide_eq_false fresh) ready context
          obtain ⟨-, rfl⟩ := Prod.mk.inj (Except.ok.inj (again.symm.trans applied))
          obtain ⟨s', w', ran, ran', last⟩ := ih (s := { s with engine := e₂ }) resumed₁
            extended.built nodup causal
          refine ⟨s', w', ?_, ?_, last⟩
          · show Run.run Collector.step s (.deliver op context :: _) = .ok s'
            rw [Run.run, Collector.step, applied]
            exact ran
          · rw [split, applyAll_cons, applied']
            exact ran'
      | setDeleteContext id context =>
          have resumed₁ : Resumed [] (s.engine.setDeleteContext id context) w :=
            ⟨⟨e, thinned.congr rfl rfl rfl rfl (le_refl _) thinned.clock thinned.pending, tree⟩,
              resumed.quiet, resumed.quiet', resumed.remembers⟩
          exact ih (s := { s with engine := s.engine.setDeleteContext id context }) resumed₁
            (built.congr rfl rfl (le_refl _)) nodup causal
      | rejectPending id =>
          have idle : (s.engine.rejectPending id).2 = s.engine := by
            rw [rejectPending, resumed.quiet]
            rfl
          obtain ⟨s', w', ran, ran', last⟩ := ih resumed built nodup causal
          refine ⟨s', w', ?_, ran', last⟩
          show Run.run Collector.step s (.rejectPending id :: _) = .ok s'
          rw [Run.run, Collector.step, idle]
          exact ran
      | collect frontier options => exact ih resumed built nodup causal

/-- The stream delivers these operations in their order, or shows what a replay of them shows, apart
from the collections. -/
def Reflects (replicaId : Nat) (events : List CollectorEvent) (ops : List Operation) : Prop :=
  delivered events = ops ∨
    ∃ full e, Run.run Collector.step (Collector.init replicaId)
        (events.filter fun event => !event.isCollect) = .ok full ∧
      (Engine.new replicaId).applyAll ops = .ok e ∧ full.engine.nodes = e.nodes

end Collector

end ConfluenceEditor
