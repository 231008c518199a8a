/-
Grapheme clusters under concurrent edits.

A combining mark is inserted with `bind` set, immediately to the right of its base. The flag ranks
the mark before unbound siblings, so no unbound node at the mark's own place ever stands before it.
Nodes at other places may come between the two: below another bound node of that place, or, when the
mark was attached to the left of the node that followed its base, above that node
(`cluster_contiguous`). Every other node in between was inserted by a replica that had applied the
mark, since a node is applied after everything it hangs below (`Network.before_of_below`).
-/

import ConfluenceEditor.Library.Below
import ConfluenceEditor.Replication.Seeding

namespace ConfluenceEditor

open SidedForest SidedForest.Forest

/-! ### Parents are applied first -/

namespace Engine

/-- Every node was applied after its parent; `applied` lists the newest identifier first. -/
def ParentsFirst (nodes : List Node) (applied : List Identifier) : Prop :=
  ∀ n ∈ nodes, ∀ p, n.parent = some p → Before applied n.id p

theorem ParentsFirst.mono {nodes nodes' : List Node} {applied applied' : List Identifier}
    (first : ParentsFirst nodes applied) (old : ∀ n ∈ nodes', ∃ m ∈ nodes, m.toInsert = n.toInsert)
    (grown : applied.Sublist applied') : ParentsFirst nodes' applied' := by
  intro n member p under
  obtain ⟨m, inside, same⟩ := old n member
  have id : m.id = n.id := congrArg InsertOperation.id same
  have parent : m.parent = n.parent := congrArg InsertOperation.parent same
  rw [← id]
  exact (first m inside p (parent.trans under)).mono grown

theorem Change.parentsFirst {t t' : FugueTree} {applied applied' : List Identifier}
    (change : Change t applied t' applied') (wf : t.WF) (known : ∀ n ∈ t.nodes, n.id ∈ applied)
    (first : ParentsFirst t.nodes applied) : ParentsFirst t'.nodes applied' := by
  have flagged : ∀ (id : Identifier) (deleted : Bool) (dot : Option Identifier),
      ∀ n ∈ t.nodes.map (FugueTree.flag id deleted dot), ∃ m ∈ t.nodes, m.toInsert = n.toInsert := by
    intro id deleted dot n member
    obtain ⟨m, inside, rfl⟩ := List.mem_map.mp member
    exact ⟨m, inside, (FugueTree.flag_toInsert ..).symm⟩
  cases change with
  | idle => exact first
  | spared op fresh =>
      exact first.mono (fun n member => ⟨n, member, rfl⟩) (List.sublist_cons_self ..)
  | delete op fresh found set =>
      rename_i n
      obtain ⟨t₁, set₁, -, -, list⟩ := wf.setDeleted_spec true
        (some (laterDelete op.id n.deletedBy)) (setDeleted_present set)
      obtain rfl := Except.ok.inj (set₁.symm.trans set)
      rw [list]
      exact first.mono (flagged _ _ _) (List.sublist_cons_self ..)
  | undelete op fresh set =>
      obtain ⟨t₁, set₁, -, -, list⟩ := wf.setDeleted_spec false none (setDeleted_present set)
      obtain rfl := Except.ok.inj (set₁.symm.trans set)
      rw [list]
      exact first.mono (flagged _ _ _) (List.sublist_cons_self ..)
  | remove id removed =>
      obtain ⟨-, before, n, after, -, old, new⟩ := wf.tryRemoveLeaf removed
      refine first.mono (fun m member => ⟨m, ?_, rfl⟩) (List.Sublist.refl _)
      rw [new] at member
      rw [old]
      simp only [List.mem_append, List.mem_cons] at member ⊢
      exact member.imp_right Or.inr
  | @insert t' op fresh attached =>
      have absent : t.hasIdentifier op.id = false := by
        rw [Bool.eq_false_iff]
        intro present
        obtain ⟨n, member, same⟩ := wf.hasIdentifier_iff.mp present
        exact fresh (same ▸ known n member)
      obtain ⟨t₁, attached₁, -, -, before, after, old, new⟩ :=
        wf.attach_spec op (attach_ready attached) absent
      obtain rfl := Except.ok.inj (attached.symm.trans attached₁)
      intro n member p under
      have cases' : n = op.toNode ∨ n ∈ t.nodes := by
        rw [new] at member
        rw [old]
        simp only [List.mem_append, List.mem_cons] at member ⊢
        tauto
      rcases cases' with rfl | inside
      · -- the parent is in the tree, so it was applied
        obtain ⟨m, there, rfl⟩ := wf.hasIdentifier_iff.mp (attach_ready attached p under)
        exact before_cons_iff.mpr (Or.inl ⟨rfl, known m there⟩)
      · exact (first n inside p under).mono (List.sublist_cons_self ..)

variable {e : Engine}

theorem Reachable.parentsFirst (reachable : e.Reachable) : ParentsFirst e.tree.nodes e.applied :=
  reachable.keeps (P := fun e => ParentsFirst e.tree.nodes e.applied)
    (fun _ n member => by simp [new] at member)
    fun sound move first => move.change.parentsFirst sound.wf sound.known first

theorem Reachable.nodup_applied (reachable : e.Reachable) : e.applied.Nodup :=
  reachable.keeps (P := fun e => e.applied.Nodup) (fun _ => List.nodup_nil)
    fun _ move nodup => Seeding.nodup_of_change move.change nodup

end Engine

namespace Network

variable {n n' : Network}

/-! ### Nodes of different replicas -/

/-- A command is a call of one engine's method, and what it mints is issued. -/
theorem step_call {command : Command} (moved : n.step command = .ok n') :
    ∃ i c e ops, (n.replicas i).call c = .ok e ∧ n'.replicas = Function.update n.replicas i e ∧
      n'.issued = n.issued ++ ops := by
  cases command with
  | localInsert i visibleIndex value binds =>
      obtain ⟨⟨op, e⟩, inserted, done⟩ := Throwing.ok_of_bind moved
      obtain rfl := Except.ok.inj done
      refine ⟨i, .edit (.insert visibleIndex value binds), e, _, ?_, rfl, rfl⟩
      simp only [Engine.call, Engine.edit, inserted, bind, Except.bind]
  | localDelete i visibleIndex count =>
      obtain ⟨⟨ops, e⟩, deleted, done⟩ := Throwing.ok_of_bind moved
      obtain rfl := Except.ok.inj done
      refine ⟨i, .edit (.delete visibleIndex count), e, _, ?_, rfl, rfl⟩
      simp only [Engine.call, Engine.edit, deleted, bind, Except.bind]
  | undo i =>
      obtain ⟨⟨outcome, e⟩, undone, done⟩ := Throwing.ok_of_bind moved
      obtain rfl := Except.ok.inj done
      refine ⟨i, .edit .undo, e, _, ?_, rfl, rfl⟩
      simp only [Engine.call, Engine.edit, undone, bind, Except.bind]
  | redo i =>
      obtain ⟨⟨outcome, e⟩, redone, done⟩ := Throwing.ok_of_bind moved
      obtain rfl := Except.ok.inj done
      refine ⟨i, .edit .redo, e, _, ?_, rfl, rfl⟩
      simp only [Engine.call, Engine.edit, redone, bind, Except.bind]
  | deliver i op =>
      simp only [Network.step] at moved
      split_ifs at moved with issued
      obtain ⟨⟨buffered, e⟩, delivered, done⟩ := Throwing.ok_of_bind moved
      obtain rfl := Except.ok.inj done
      refine ⟨i, .applyRemote op none, e, [], ?_, rfl, (List.append_nil _).symm⟩
      simp only [Engine.call, delivered, bind, Except.bind]

/-- Every engine of a reachable network is reached by calls of its methods. -/
theorem reachable_replica (reachable : n.Reachable) (i : Nat) : (n.replicas i).Reachable := by
  refine reachable.invariant (P := fun n => ∀ i, (n.replicas i).Reachable)
    (fun i => ⟨i, .refl _⟩) (fun n command n' holds moved i => ?_) i
  obtain ⟨k, c, e, -, called, same, -⟩ := step_call moved
  rw [same]
  by_cases here : i = k
  · subst here
    obtain ⟨replicaId, reached⟩ := holds i
    rw [Function.update_self]
    exact ⟨replicaId, reached.trans (.single called)⟩
  · rw [Function.update_of_ne here]
    exact holds i

theorem issued_mono (reached : Run.Reaches step n n') {op : Operation} (issued : op ∈ n.issued) :
    op ∈ n'.issued := by
  refine reached.invariant (P := fun n => op ∈ n.issued) issued fun n command n' inside moved => ?_
  obtain ⟨-, -, -, ops, -, -, grown⟩ := step_call moved
  rw [grown]
  exact List.mem_append_left ops inside

theorem issued_of_node (invariant : n.Invariant) {i : Nat} {x : Node}
    (member : x ∈ (n.replicas i).tree.nodes) : .insert x.toInsert ∈ n.issued := by
  obtain ⟨history, replica⟩ := invariant.replica i
  exact replica.flown _ ((replica.known _).mpr (Or.inl (replica.built.mem_history_of_node member)))

/-- Nodes of one identifier are one insert. -/
theorem toInsert_eq (invariant : n.Invariant) {i j : Nat} {x y : Node}
    (first : x ∈ (n.replicas i).tree.nodes) (second : y ∈ (n.replicas j).tree.nodes)
    (same : x.id = y.id) : x.toInsert = y.toInsert :=
  Operation.insert.inj (eq_of_id_eq invariant.unique (issued_of_node invariant first)
    (issued_of_node invariant second) same)

/-- A node stands in the engine of the replica that minted it. -/
theorem exists_own (invariant : n.Invariant) {i : Nat} {x : Node}
    (member : x ∈ (n.replicas i).tree.nodes) :
    ∃ y ∈ (n.replicas x.id.r).tree.nodes, y.id = x.id := by
  obtain ⟨history, replica⟩ := invariant.replica x.id.r
  have own := replica.own _ (issued_of_node invariant member) rfl
  obtain ⟨y, inside, same⟩ := List.mem_map.mp ((replica.built.inserts x.toInsert).mpr own)
  exact ⟨y, inside, congrArg InsertOperation.id same⟩

theorem exists_parent (invariant : n.Invariant) {i : Nat} {x : Node}
    (member : x ∈ (n.replicas i).tree.nodes) {p : Identifier} (under : x.parent = some p) :
    ∃ y ∈ (n.replicas i).tree.nodes, y.id = p := by
  obtain ⟨history, replica⟩ := invariant.replica i
  obtain ⟨ins, inside, same⟩ :=
    replica.built.causal.met (replica.built.mem_history_of_node member) p under
  obtain ⟨y, there, rfl⟩ := List.mem_map.mp ((replica.built.inserts ins).mpr inside)
  exact ⟨y, there, same⟩

/-- A replica applies a node after everything that the node hangs below, in whichever replica the
chain of parents is read. -/
theorem before_of_below (reachable : n.Reachable) {j : Nat} {a x : Node}
    (below : Below Node.id Node.parent (n.replicas j).tree.nodes a x) {k : Nat} {y : Node}
    (member : y ∈ (n.replicas k).tree.nodes) (same : y.id = x.id) :
    Before (n.replicas k).applied x.id a.id := by
  have invariant := invariant_of_reachable reachable
  have first := (reachable_replica reachable k).parentsFirst
  have parent : ∀ {x y : Node}, x ∈ (n.replicas j).tree.nodes → y ∈ (n.replicas k).tree.nodes →
      y.id = x.id → y.parent = x.parent := fun inside there same =>
    congrArg InsertOperation.parent (toInsert_eq invariant there inside same)
  induction below generalizing y with
  | child inside under =>
      rw [← same]
      exact first y member _ ((parent inside member same).trans under)
  | @deeper p x above inside under ih =>
      have under' : y.parent = some p.id := (parent inside member same).trans under
      obtain ⟨q, there, named⟩ := exists_parent invariant member under'
      have next : Before (n.replicas k).applied x.id p.id := same ▸ first y member p.id under'
      exact next.before (ih there named) (reachable_replica reachable k).nodup_applied

/-! ### Where the mark is attached -/

/-- The mark is a right child of its base or a left child of the node that followed it. -/
def Hosted (b : Node) (m : InsertOperation) : Prop :=
  (m.parent = some b.id ∧ m.side = .R) ∨ (m.parent.isSome = true ∧ m.side = .L)

/-- An insertion behind a visible node. -/
theorem localInsert_behind (invariant : n.Invariant) {i index value : Nat} {bind : Bool} {b : Node}
    {m : InsertOperation} {e : Engine} (base : (n.replicas i).tree.visible[index]? = some b)
    (inserted : (n.replicas i).localInsert ((index + 1 : Nat) : Int) value bind = .ok (m, e)) :
    m.value = value ∧ m.bind = bind ∧ Hosted b m ∧
      ∃ before after, (n.replicas i).tree.nodes = before ++ b :: after ∧
        e.tree.nodes = before ++ b :: m.toNode :: after := by
  obtain ⟨history, replica⟩ := invariant.replica i
  have inside : index + 1 ≤ (n.replicas i).tree.visible.length :=
    (List.getElem?_eq_some_iff.mp base).1
  obtain ⟨m', e', before, after, edited, -, valued, bound, position, list, origin, -, -⟩ :=
    replica.built.localInsert_spec (index + 1) inside value bind
  obtain ⟨rfl, rfl⟩ := Prod.mk.inj (Except.ok.inj (edited.symm.trans inserted))
  obtain ⟨first, b', split, at?⟩ := origin
  obtain rfl := Option.some.inj (at?.symm.trans base)
  have nodes := position.split
  rw [split, List.append_assoc] at nodes list
  refine ⟨valued, bound, ?_, first, after, nodes, list⟩
  have adjacent := position.adjacent
  cases under : m'.parent with
  | none =>
      -- a document that is not empty has a root already
      have rootRight : ∀ x ∈ (n.replicas i).tree.nodes, x.parent = none → x.side = .R :=
        fun x member orphan => invariant.rootRight x.toInsert (issued_of_node invariant member) orphan
      have inhabited : (n.replicas i).tree.nodes ≠ [] := by simp [nodes]
      obtain ⟨x, member, orphan, onSide⟩ := replica.built.wf.exists_root rootRight inhabited
      refine absurd ⟨orphan.trans under.symm, ?_⟩ (position.free x member)
      exact onSide.trans (position.rootRight under).symm
  | some p =>
      cases onSide : m'.side with
      | L => exact Or.inr ⟨by rw [under]; rfl, onSide⟩
      | R =>
          rw [under, onSide] at adjacent
          obtain ⟨first', x, split', rfl⟩ := adjacent
          obtain ⟨-, same⟩ := List.append_inj' (split.symm.trans split') rfl
          rw [← List.singleton_inj.mp same] at under
          exact Or.inl ⟨under, onSide⟩

/-! ### The cluster -/

/-- The replica that minted the node `x` had applied `m` before. -/
def InsertedAfter (n : Network) (x m : Identifier) : Prop := Before (n.replicas x.r).applied x m

/-- Two ways to come between a bound node and its base: to hang below another bound node that stands
before it at its place, or outside the node it was attached to the left of. -/
def Interposed (nodes : List Node) (x y : Node) : Prop :=
  (∃ s, s.bind = true ∧ s.parent = y.parent ∧ s.side = y.side ∧ Before nodes s y ∧
      Below Node.id Node.parent nodes s x) ∨
    (y.side = .L ∧ ∃ p ∈ nodes, y.parent = some p.id ∧ ¬ Below Node.id Node.parent nodes p x)

/-- What the flag of the bound node `m` keeps in an engine with the node list `nodes`. -/
structure Clustered (n : Network) (nodes : List Node) (b m : Identifier) : Prop where
  ranked : ∀ x ∈ nodes, ∀ y ∈ nodes, y.id = m → x.bind = false → x.parent = y.parent →
    x.side = y.side → Before nodes y x
  between : ∀ a x y, a.id = b → y.id = m → x.bind = false → Before nodes a x → Before nodes x y →
    n.InsertedAfter x.id m ∨ Interposed nodes x y

/-- A sibling that stands before a bound node is bound. -/
theorem bind_of_before {t : FugueTree} (wf : t.WF) {s y : Node} (before : Before t.nodes s y)
    (parent : s.parent = y.parent) (side : s.side = y.side) (bound : y.bind = true) :
    s.bind = true := by
  have order : s.siblingLE y := wf.rows.before (by rwa [FugueTree.inorder_public]) parent side
  rw [Node.siblingLE_iff, Node.siblingLess, rankLess_eq_false] at order
  cases binds : s.bind with
  | true => rfl
  | false =>
      rw [bound, binds] at order
      simp [siblingRank] at order

/-- Below the parent of the mark, whatever stands before the mark hangs below the mark or below a
bound sibling. -/
theorem interposed_of_below (reachable : n.Reachable) {j : Nat} {x y p : Node}
    (member : y ∈ (n.replicas j).tree.nodes) (above : p ∈ (n.replicas j).tree.nodes)
    (bound : y.bind = true) (unbound : x.bind = false) (under : y.parent = some p.id)
    (below : Below Node.id Node.parent (n.replicas j).tree.nodes p x)
    (second : Before (n.replicas j).tree.nodes x y)
    (first : y.side = .R → Before (n.replicas j).tree.nodes p x) :
    n.InsertedAfter x.id y.id ∨ Interposed (n.replicas j).tree.nodes x y := by
  have wf := (reachable_replica reachable j).sound.wf
  have rows := wf.rows
  have found := rows.before_child (m := y) (p := p) (x := x)
  rw [FugueTree.inorder_public] at found
  rcases found member above under below second first with inner | ⟨s, order, parent, side, inner⟩
  · obtain ⟨z, own, same⟩ := exists_own (invariant_of_reachable reachable) inner.mem
    exact Or.inl (before_of_below reachable inner own same)
  · have bound' := bind_of_before wf order parent side bound
    rcases inner with rfl | inner
    · rw [unbound] at bound'
      cases bound'
    · exact Or.inr (Or.inl ⟨s, bound', parent, side, order, inner⟩)

/-- A bound node that was inserted behind `b` keeps its place. -/
theorem clustered_of_issued (reachable : n.Reachable) {b : Node} {m : InsertOperation}
    (issued : .insert m ∈ n.issued) (bound : m.bind = true) (hosted : Hosted b m) (j : Nat) :
    n.Clustered (n.replicas j).tree.nodes b.id m.id := by
  have invariant := invariant_of_reachable reachable
  have wf := (reachable_replica reachable j).sound.wf
  have mark : ∀ y ∈ (n.replicas j).tree.nodes, y.id = m.id → y.toInsert = m := fun y member same =>
    Operation.insert.inj (eq_of_id_eq invariant.unique (issued_of_node invariant member) issued same)
  refine ⟨fun x inside y member same unbound parent side => ?_,
    fun a x y base same unbound first second => ?_⟩
  · have bound' : y.bind = true := (congrArg InsertOperation.bind (mark y member same)).trans bound
    have other : y ≠ x := by
      rintro rfl
      rw [unbound] at bound'
      cases bound'
    refine (before_total member inside other).resolve_right fun before => ?_
    have ranked := bind_of_before wf before parent side bound'
    rw [unbound] at ranked
    cases ranked
  · have member := second.mem.2
    have whole := mark y member same
    have bound' : y.bind = true := (congrArg InsertOperation.bind whole).trans bound
    have parent : y.parent = m.parent := congrArg InsertOperation.parent whole
    have side : y.side = m.side := congrArg InsertOperation.side whole
    rw [← same]
    rcases hosted with ⟨under, onSide⟩ | ⟨under, onSide⟩
    · -- a right child of the base
      have child : y.parent = some a.id := by rw [parent, under, base]
      have found := wf.rows.below_of_between (m := y) (p := a) (x := x)
      rw [FugueTree.inorder_public] at found
      have below := found member child (side.trans onSide) first second
      exact interposed_of_below reachable member first.mem.1 bound' unbound child below second
        fun _ => first
    · -- a left child of the node that followed the base
      obtain ⟨p, named⟩ := Option.isSome_iff_exists.mp under
      obtain ⟨q, above, rfl⟩ := exists_parent invariant member (parent.trans named)
      by_cases below : Below Node.id Node.parent (n.replicas j).tree.nodes q x
      · refine interposed_of_below reachable member above bound' unbound (parent.trans named) below
          second fun onRight => ?_
        rw [side, onSide] at onRight
        cases onRight
      · exact Or.inr (Or.inr ⟨side.trans onSide, q, above, parent.trans named, below⟩)

/-- A base that two replicas have. -/
def baseNode : Node := ⟨⟨1, 3⟩, 98, none, .R, false, false, none⟩

def shared : List Command :=
  [.localInsert 3 0 98 false, .deliver 1 (.insert baseNode.toInsert),
    .deliver 2 (.insert baseNode.toInsert)]

/-- Replica 2 types behind the base too, and the replicas exchange what they inserted. -/
def typedBehind : List Command :=
  [.localInsert 2 1 120 false, .deliver 1 (.insert ⟨⟨2, 2⟩, 120, some ⟨1, 3⟩, .R, false⟩),
    .deliver 2 (.insert ⟨⟨2, 1⟩, 769, some ⟨1, 3⟩, .R, true⟩)]

/-- The identifier `x` stands between `b` and `m`. -/
def Between (nodes : List Node) (b x m : Identifier) : Prop :=
  Before (nodes.map Node.id) b x ∧ Before (nodes.map Node.id) x m

/-- Replica `j` has no unbound node between `b` and `m`, unless it was inserted with knowledge of `m`
or stood there already when replica `i` had inserted `m`. -/
def Contiguous (n₁ n₂ : Network) (i j : Nat) (b m : Identifier) : Prop :=
  ∀ x ∈ (n₂.replicas j).tree.nodes, x.bind = false →
    Between (n₂.replicas j).tree.nodes b x.id m →
      n₂.InsertedAfter x.id m ∨ Between (n₁.replicas i).tree.nodes b x.id m

instance (n : Network) (x m : Identifier) : Decidable (n.InsertedAfter x m) :=
  inferInstanceAs (Decidable (Before _ x m))

instance (nodes : List Node) (b x m : Identifier) : Decidable (Between nodes b x m) :=
  inferInstanceAs (Decidable (_ ∧ _))

instance (n₁ n₂ : Network) (i j : Nat) (b m : Identifier) :
    Decidable (Contiguous n₁ n₂ i j b m) :=
  inferInstanceAs (Decidable (∀ x ∈ (n₂.replicas j).tree.nodes, _))

/-- Replica 3 typed the base and a character behind it; replica 2 has the base only. -/
def followed : List Command :=
  [.localInsert 3 0 98 false, .localInsert 3 1 99 false,
    .deliver 1 (.insert baseNode.toInsert),
    .deliver 1 (.insert ⟨⟨2, 3⟩, 99, some ⟨1, 3⟩, .R, false⟩),
    .deliver 2 (.insert baseNode.toInsert)]

/-- Replica 2 types behind the base, and replica 1 learns of it. -/
def interposed : List Command :=
  [.localInsert 2 1 120 false, .deliver 1 (.insert ⟨⟨2, 2⟩, 120, some ⟨1, 3⟩, .R, false⟩)]

/-- Replica 1 inserts a mark of its own and types behind it before it learns of the other mark. -/
def stacked : List Command :=
  [.localInsert 1 1 769 true, .localInsert 1 2 120 false,
    .deliver 1 (.insert ⟨⟨2, 2⟩, 770, some ⟨1, 3⟩, .R, true⟩)]

/-- What is typed behind one mark comes between the base and a concurrent mark. -/
example : Run.ends (Run.run step init (shared ++ [.localInsert 2 1 770 true])) (fun n₁ =>
    Run.ends (Run.run step n₁ stacked) fun n₂ =>
      decide (¬ Contiguous n₁ n₂ 2 1 baseNode.id ⟨2, 2⟩)) = true := by decide

end Network

end ConfluenceEditor
