/-
What a list of operations says about one node's tombstone.

`dotOf history target` is the delete that holds the attribution of `target` after the operations of
`history` were applied in that order, `none` when the node is visible: a delete keeps the greater of
the two identifiers, an undelete clears the attribution of its own replica. The rest of the module
says how far the order of the operations matters: a greatest delete whose replica never undeletes
wins in every order (`dotOf_eq_of_unchallenged`), and where no delete is about the node the
operations leave it visible (`dotOf_eq_none`).
-/

import ConfluenceEditor.Engine.Operation
import Mathlib.Data.List.Induction

namespace ConfluenceEditor

/-- The attribution after a delete. -/
def laterDelete (id : Identifier) : Option Identifier → Identifier
  | none => id
  | some deletedBy => if compareIds id deletedBy > 0 then id else deletedBy

/-- The attribution after an undelete. -/
def afterUndelete (id : Identifier) : Option Identifier → Option Identifier
  | none => none
  | some deletedBy => if deletedBy.r = id.r then none else some deletedBy

/-- The change of one node's attribution by one operation. -/
def stepDot (target : Identifier) (dot : Option Identifier) : Operation → Option Identifier
  | .insert _ => dot
  | .delete op => if op.target = target then some (laterDelete op.id dot) else dot
  | .undelete op => if op.target = target then afterUndelete op.id dot else dot

/-- The attribution of a node after a list of operations. -/
def dotOf (history : List Operation) (target : Identifier) : Option Identifier :=
  history.foldl (stepDot target) none

/-- `d` is a delete of `target` in the list. -/
def Deletes (history : List Operation) (target d : Identifier) : Prop :=
  Operation.delete ⟨d, target⟩ ∈ history

/-- `u` is an undelete of `target` in the list. -/
def Undeletes (history : List Operation) (target u : Identifier) : Prop :=
  Operation.undelete ⟨u, target⟩ ∈ history

instance (history : List Operation) (target d : Identifier) :
    Decidable (Deletes history target d) :=
  inferInstanceAs (Decidable (_ ∈ _))

instance (history : List Operation) (target u : Identifier) :
    Decidable (Undeletes history target u) :=
  inferInstanceAs (Decidable (_ ∈ _))

section Tombstone

variable {target : Identifier}

@[simp] theorem dotOf_nil : dotOf [] target = none := rfl

theorem dotOf_append_singleton (history : List Operation) (op : Operation) :
    dotOf (history ++ [op]) target = stepDot target (dotOf history target) op := by
  rw [dotOf, List.foldl_append]
  rfl

theorem dotOf_append (first second : List Operation) :
    dotOf (first ++ second) target = second.foldl (stepDot target) (dotOf first target) :=
  List.foldl_append ..

theorem laterDelete_eq_or (id : Identifier) (dot : Option Identifier) :
    laterDelete id dot = id ∨ dot = some (laterDelete id dot) := by
  cases dot with
  | none => exact Or.inl rfl
  | some d =>
      rw [laterDelete]
      split_ifs
      · exact Or.inl rfl
      · exact Or.inr rfl

theorem afterUndelete_eq_or (id : Identifier) (dot : Option Identifier) :
    afterUndelete id dot = none ∨ afterUndelete id dot = dot := by
  cases dot with
  | none => exact Or.inl rfl
  | some d =>
      rw [afterUndelete]
      split_ifs
      · exact Or.inl rfl
      · exact Or.inr rfl

/-- Nothing in the list takes the attribution away from `d`. -/
structure Holds (ops : List Operation) (target d : Identifier) : Prop where
  greatest : ∀ d', Deletes ops target d' → ¬ d < d'
  kept : ∀ u, Undeletes ops target u → u.r ≠ d.r

theorem Holds.tail {op : Operation} {ops : List Operation} {d : Identifier}
    (holds : Holds (op :: ops) target d) : Holds ops target d :=
  ⟨fun d' member => holds.greatest d' (List.mem_cons_of_mem _ member),
    fun u member => holds.kept u (List.mem_cons_of_mem _ member)⟩

theorem stepDot_eq_self_iff {d : Identifier} (op : Operation) :
    stepDot target (some d) op = some d ↔ Holds [op] target d := by
  cases op with
  | insert op =>
      exact ⟨fun _ => ⟨fun d' deleted => by simp [Deletes] at deleted,
        fun u revived => by simp [Undeletes] at revived⟩, fun _ => rfl⟩
  | delete op =>
      rw [stepDot]
      split_ifs with here
      · subst here
        constructor
        · intro same
          refine ⟨fun d' deleted => ?_, fun u revived => by simp [Undeletes] at revived⟩
          obtain rfl : d' = op.id :=
            congrArg DeleteOperation.id (Operation.delete.inj (List.mem_singleton.mp deleted))
          intro greater
          rw [laterDelete, if_pos (compareIds_pos_iff.mpr greater)] at same
          rw [Option.some.inj same] at greater
          exact d.lt_irrefl greater
        · intro holds
          have notGreater : ¬ d < op.id := holds.greatest op.id (List.mem_singleton.mpr rfl)
          rw [laterDelete, if_neg (by rwa [compareIds_pos_iff])]
      · refine ⟨fun _ => ⟨fun d' deleted => ?_, fun u revived => by simp [Undeletes] at revived⟩,
          fun _ => rfl⟩
        exact absurd (congrArg DeleteOperation.target
          (Operation.delete.inj (List.mem_singleton.mp deleted))).symm here
  | undelete op =>
      rw [stepDot]
      split_ifs with here
      · subst here
        constructor
        · intro same
          refine ⟨fun d' deleted => by simp [Deletes] at deleted, fun u revived own => ?_⟩
          obtain rfl : u = op.id :=
            congrArg UndeleteOperation.id (Operation.undelete.inj (List.mem_singleton.mp revived))
          rw [afterUndelete, if_pos own.symm] at same
          cases same
        · intro holds
          have foreign : op.id.r ≠ d.r := holds.kept op.id (List.mem_singleton.mpr rfl)
          rw [afterUndelete, if_neg fun same => foreign same.symm]
      · refine ⟨fun _ => ⟨fun d' deleted => by simp [Deletes] at deleted, fun u revived => ?_⟩,
          fun _ => rfl⟩
        exact absurd (congrArg UndeleteOperation.target
          (Operation.undelete.inj (List.mem_singleton.mp revived))).symm here

/-- Once `d` holds the attribution, such a list does not change it. -/
theorem Holds.foldl_eq {ops : List Operation} {d : Identifier} (holds : Holds ops target d) :
    ops.foldl (stepDot target) (some d) = some d := by
  induction ops with
  | nil => rfl
  | cons op ops ih =>
      have head : Holds [op] target d :=
        ⟨fun d' member => holds.greatest d' (by
            rw [Deletes, List.mem_singleton] at member
            rw [← member]
            exact List.mem_cons_self),
          fun u member => holds.kept u (by
            rw [Undeletes, List.mem_singleton] at member
            rw [← member]
            exact List.mem_cons_self)⟩
      rw [List.foldl_cons, (stepDot_eq_self_iff op).mpr head]
      exact ih holds.tail

/-- An attribution after a list was there before it, or is a delete of the list. -/
theorem foldl_eq_some {ops : List Operation} {dot : Option Identifier} {d : Identifier}
    (ends : ops.foldl (stepDot target) dot = some d) : dot = some d ∨ Deletes ops target d := by
  induction ops using List.reverseRecOn generalizing d with
  | nil => exact Or.inl ends
  | append_singleton ops op ih =>
      rw [List.foldl_append, List.foldl_cons, List.foldl_nil] at ends
      have earlier : ∀ {d}, ops.foldl (stepDot target) dot = some d →
          dot = some d ∨ Deletes (ops ++ [op]) target d := fun known =>
        (ih known).imp_right fun member => List.mem_append_left _ member
      cases op with
      | insert op => exact earlier ends
      | delete op =>
          rw [stepDot] at ends
          split_ifs at ends with here
          · subst here
            obtain rfl := Option.some.inj ends
            rcases laterDelete_eq_or op.id (ops.foldl (stepDot op.target) dot) with new | old
            · rw [new]
              exact Or.inr (List.mem_append_right _ (by simp))
            · exact earlier old
          · exact earlier ends
      | undelete op =>
          rw [stepDot] at ends
          split_ifs at ends with here
          · rcases afterUndelete_eq_or op.id (ops.foldl (stepDot target) dot) with cleared | kept
            · rw [cleared] at ends
              cases ends
            · rw [kept] at ends
              exact earlier ends
          · exact earlier ends

/-- An attribution is a delete of that node that was applied. -/
theorem deletes_of_dotOf {history : List Operation} {d : Identifier}
    (dot : dotOf history target = some d) : Deletes history target d :=
  (foldl_eq_some dot).resolve_left fun start => by cases start

/-- Without the delete `d` itself in the list, an attribution that is lost never comes back. -/
theorem foldl_some_iff {ops : List Operation} {d : Identifier} (absent : ¬ Deletes ops target d) :
    ops.foldl (stepDot target) (some d) = some d ↔ Holds ops target d := by
  refine ⟨fun ends => ?_, Holds.foldl_eq⟩
  induction ops with
  | nil => exact ⟨fun d' deleted => (nomatch deleted), fun u revived => (nomatch revived)⟩
  | cons op ops ih =>
      have later : ¬ Deletes ops target d := fun deleted =>
        absent (List.mem_cons_of_mem _ deleted)
      rw [List.foldl_cons] at ends
      have stayed : stepDot target (some d) op = some d := (foldl_eq_some ends).resolve_right later
      rw [stayed] at ends
      have head := (stepDot_eq_self_iff op).mp stayed
      have rest := ih later ends
      refine ⟨fun d' deleted => ?_, fun u revived => ?_⟩
      · rcases List.mem_cons.mp deleted with same | inside
        · exact head.greatest d' (List.mem_singleton.mpr same)
        · exact rest.greatest d' inside
      · rcases List.mem_cons.mp revived with same | inside
        · exact head.kept u (List.mem_singleton.mpr same)
        · exact rest.kept u inside

/-- Without a delete of the node there is no attribution. -/
theorem dotOf_eq_none {history : List Operation} (spared : ∀ d, ¬ Deletes history target d) :
    dotOf history target = none := by
  cases dot : dotOf history target with
  | none => rfl
  | some d => exact absurd (deletes_of_dotOf dot) (spared d)

/-- `d` is the greatest delete of the node, and its replica never undeletes the node. -/
structure Unchallenged (history : List Operation) (target d : Identifier) : Prop
    extends Holds history target d where
  deleted : Deletes history target d

/-- A greatest delete whose replica never undeletes wins, wherever it stands in the list. -/
theorem dotOf_eq_of_unchallenged {history : List Operation} {d : Identifier}
    (top : Unchallenged history target d) : dotOf history target = some d := by
  obtain ⟨⟨greatest, kept⟩, deleted⟩ := top
  obtain ⟨first, second, rfl⟩ := List.append_of_mem deleted
  have atDelete : stepDot target (dotOf first target) (.delete ⟨d, target⟩) = some d := by
    rw [stepDot, if_pos rfl]
    cases dot : dotOf first target with
    | none => rfl
    | some d' =>
        have notGreater : ¬ d < d' :=
          greatest d' (List.mem_append_left _ (deletes_of_dotOf dot))
        rw [laterDelete]
        split_ifs with later
        · rfl
        · rw [compareIds_pos_iff] at later
          by_cases same : d = d'
          · rw [same]
          · exact absurd (Identifier.lt_of_not_lt later fun h => same h.symm) notGreater
  rw [dotOf_append, List.foldl_cons, atDelete]
  have inside : ∀ op ∈ second, op ∈ first ++ .delete ⟨d, target⟩ :: second := fun op member =>
    List.mem_append_right _ (List.mem_cons_of_mem _ member)
  exact Holds.foldl_eq ⟨fun d' member => greatest d' (inside _ member),
    fun u member => kept u (inside _ member)⟩

/-- Operations that say nothing about the node may be left out. -/
theorem foldl_filter {ops : List Operation} {p : Operation → Bool}
    (silent : ∀ op ∈ ops, p op = false → ∀ dot, stepDot target dot op = dot)
    (dot : Option Identifier) :
    (ops.filter p).foldl (stepDot target) dot = ops.foldl (stepDot target) dot := by
  induction ops generalizing dot with
  | nil => rfl
  | cons op ops ih =>
      have ih := ih fun x member => silent x (List.mem_cons_of_mem _ member)
      cases kept : p op with
      | true => rw [List.filter_cons_of_pos kept, List.foldl_cons, List.foldl_cons, ih]
      | false =>
          rw [List.filter_cons_of_neg (by simp [kept]), ih, List.foldl_cons,
            silent op List.mem_cons_self kept]

/-! ### Undeletes last -/

/-- Nothing in the list deletes the node. -/
def NoDelete (history : List Operation) (target : Identifier) : Prop :=
  ∀ d, ¬ Deletes history target d

theorem foldl_none_of_noDelete {history : List Operation} (spared : NoDelete history target) :
    history.foldl (stepDot target) none = none := dotOf_eq_none spared

/-- Undeletes after everything else: one of the attributed replica clears the node. -/
theorem foldl_undeletes {history : List Operation} {d u : Identifier}
    (spared : NoDelete history target) (revived : Undeletes history target u)
    (own : u.r = d.r) : history.foldl (stepDot target) (some d) = none := by
  induction history with
  | nil => cases revived
  | cons op history ih =>
      have spared' : NoDelete history target := fun d' member =>
        spared d' (List.mem_cons_of_mem _ member)
      rw [List.foldl_cons]
      cases op with
      | insert op =>
          refine ih spared' ?_
          rcases List.mem_cons.mp revived with same | later
          · cases same
          · exact later
      | delete op =>
          have other : op.target ≠ target := fun same =>
            spared op.id (by subst same; exact List.mem_cons_self)
          rw [stepDot, if_neg other]
          refine ih spared' ?_
          rcases List.mem_cons.mp revived with same | later
          · cases same
          · exact later
      | undelete op =>
          by_cases clears : op.target = target ∧ d.r = op.id.r
          · rw [stepDot, if_pos clears.1, afterUndelete, if_pos clears.2]
            exact foldl_none_of_noDelete spared'
          · have step : stepDot target (some d) (.undelete op) = some d := by
              rw [stepDot]
              split_ifs with here
              · rw [afterUndelete, if_neg fun same => clears ⟨here, same⟩]
              · rfl
            rw [step]
            refine ih spared' ?_
            rcases List.mem_cons.mp revived with same | later
            · cases same
              exact absurd ⟨rfl, own.symm⟩ clears
            · exact later

end Tombstone

end ConfluenceEditor
