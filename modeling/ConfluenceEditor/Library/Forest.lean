/-
Sided ordered forests.

A forest is a row of trees; every tree has a row of left children and a row of right children, and
its in-order traversal visits the left children, the label, then the right children. The module is
generic in the label type: the traversals, the search for a label, the leftmost node, and
`updateAt`, the rewriting of one node together with the labels on the path above it.
`updateAt_split` says what an update does to the traversal: only the found node's own stretch
changes. `map_updateAt` says that an update can be read through a map of the labels.
-/

import Mathlib.Data.List.Basic
import Mathlib.Data.List.Perm.Basic
import Mathlib.Data.List.Pairwise
import Mathlib.Data.List.Nodup
import Mathlib.Tactic.Common

namespace SidedForest

/-- The two rows of children of a node. -/
inductive Side where
  | L
  | R
  deriving DecidableEq, Repr

/-- The left or the right of two things. -/
def Side.pick {β : Type} (s : Side) (l r : β) : β :=
  match s with
  | .L => l
  | .R => r

@[simp] theorem Side.pick_L {β : Type} (l r : β) : Side.L.pick l r = l := rfl

@[simp] theorem Side.pick_R {β : Type} (l r : β) : Side.R.pick l r = r := rfl

/-- A row of trees: the first tree's label, its two rows of children, and the rest of the row. -/
inductive Forest (α : Type) where
  | nil
  | cons (label : α) (left right tail : Forest α)
  deriving DecidableEq, Repr

namespace Forest

variable {α β : Type}

/-! ### Traversals -/

/-- The in-order traversal: left children, label, right children, then the rest of the row. -/
def inorder : Forest α → List α
  | nil => []
  | cons a l r t => l.inorder ++ a :: (r.inorder ++ t.inorder)

/-- The labels of the row itself. -/
def roots : Forest α → List α
  | nil => []
  | cons a _ _ t => a :: t.roots

/-- The same forest with every label mapped. -/
def map (f : α → β) : Forest α → Forest β
  | nil => nil
  | cons a l r t => cons (f a) (l.map f) (r.map f) (t.map f)

/-- Every label before its children: the order in which the nodes can be attached. -/
def preorder : Forest α → List α
  | nil => []
  | cons a l r t => a :: (l.preorder ++ r.preorder ++ t.preorder)

@[simp] theorem inorder_nil : (nil : Forest α).inorder = [] := rfl

@[simp] theorem roots_nil : (nil : Forest α).roots = [] := rfl

@[simp] theorem roots_cons (a : α) (l r t : Forest α) : (cons a l r t).roots = a :: t.roots := rfl

@[simp] theorem map_nil (f : α → β) : (nil : Forest α).map f = nil := rfl

@[simp] theorem map_cons (f : α → β) (a : α) (l r t : Forest α) :
    (cons a l r t).map f = cons (f a) (l.map f) (r.map f) (t.map f) := rfl

@[simp] theorem mem_inorder_cons {x a : α} {l r t : Forest α} :
    x ∈ (cons a l r t).inorder ↔ x = a ∨ x ∈ l.inorder ∨ x ∈ r.inorder ∨ x ∈ t.inorder := by
  simp only [inorder, List.mem_append, List.mem_cons]
  tauto

@[simp] theorem inorder_map (f : α → β) (F : Forest α) :
    (F.map f).inorder = F.inorder.map f := by
  induction F with
  | nil => rfl
  | cons a l r t ihl ihr iht => simp [inorder, ihl, ihr, iht]

@[simp] theorem roots_map (f : α → β) (F : Forest α) : (F.map f).roots = F.roots.map f := by
  induction F with
  | nil => rfl
  | cons a l r t _ _ iht => simp [iht]

theorem mem_of_mem_roots {x : α} {F : Forest α} (root : x ∈ F.roots) : x ∈ F.inorder := by
  induction F with
  | nil => cases root
  | cons a l r t _ _ iht =>
      rcases List.mem_cons.mp root with rfl | later
      · simp
      · simp [iht later]

/-! ### Searching and updating one node -/

/-- The first label that satisfies `p` in the order label, left, right, rest, with its children. -/
def find? (p : α → Bool) : Forest α → Option (α × Forest α × Forest α)
  | nil => none
  | cons a l r t =>
      if p a then some (a, l, r)
      else match l.find? p with
        | some found => some found
        | none => match r.find? p with
          | some found => some found
          | none => t.find? p

/-- Rewrite the first node that satisfies `p` by `here`, and every label above it by `above`. -/
def updateAt (p : α → Bool) (here : α → Forest α → Forest α → α × Forest α × Forest α)
    (above : α → α) : Forest α → Option (Forest α)
  | nil => none
  | cons a l r t =>
      if p a then some (cons (here a l r).1 (here a l r).2.1 (here a l r).2.2 t)
      else match l.updateAt p here above with
        | some l' => some (cons (above a) l' r t)
        | none => match r.updateAt p here above with
          | some r' => some (cons (above a) l r' t)
          | none => (t.updateAt p here above).map (cons a l r)

section Search

variable {p : α → Bool}

theorem find?_eq_none_iff {F : Forest α} : F.find? p = none ↔ ∀ x ∈ F.inorder, ¬ p x = true := by
  induction F with
  | nil => simp [find?]
  | cons a l r t ihl ihr iht =>
      unfold find?
      by_cases hit : p a = true
      · simp [hit]
      · rw [if_neg hit]
        cases hl : l.find? p with
        | some found =>
            have : ¬ ∀ x ∈ l.inorder, ¬ p x = true := fun all => by
              rw [ihl.mpr all] at hl
              cases hl
            simp only [reduceCtorEq, false_iff]
            exact fun all => this fun x member => all x (by simp [member])
        | none =>
            cases hr : r.find? p with
            | some found =>
                have : ¬ ∀ x ∈ r.inorder, ¬ p x = true := fun all => by
                  rw [ihr.mpr all] at hr
                  cases hr
                simp only [reduceCtorEq, false_iff]
                exact fun all => this fun x member => all x (by simp [member])
            | none =>
                simp only [iht]
                constructor
                · intro later x member
                  rcases mem_inorder_cons.mp member with rfl | inl | inr | inl
                  · exact hit
                  · exact ihl.mp hl x inl
                  · exact ihr.mp hr x inr
                  · exact later x inl
                · exact fun all x member => all x (by simp [member])

/-- A found node satisfies the test and splits the traversal around its own two rows. -/
theorem find?_split {F : Forest α} {a : α} {l r : Forest α} (found : F.find? p = some (a, l, r)) :
    p a = true ∧ ∃ before after, F.inorder = before ++ (l.inorder ++ a :: r.inorder) ++ after := by
  induction F with
  | nil => simp [find?] at found
  | cons b l' r' t ihl ihr iht =>
      unfold find? at found
      by_cases hit : p b = true
      · rw [if_pos hit] at found
        simp only [Option.some.injEq, Prod.mk.injEq] at found
        obtain ⟨rfl, rfl, rfl⟩ := found
        exact ⟨hit, [], t.inorder, by simp [inorder]⟩
      · rw [if_neg hit] at found
        cases hl : l'.find? p with
        | some inner =>
            rw [hl] at found
            obtain ⟨holds, before, after, split⟩ := ihl (hl.trans found)
            exact ⟨holds, before, after ++ b :: (r'.inorder ++ t.inorder), by
              simp [inorder, split]⟩
        | none =>
            rw [hl] at found
            cases hr : r'.find? p with
            | some inner =>
                rw [hr] at found
                obtain ⟨holds, before, after, split⟩ := ihr (hr.trans found)
                exact ⟨holds, l'.inorder ++ b :: before, after ++ t.inorder, by
                  simp [inorder, split]⟩
            | none =>
                rw [hr] at found
                obtain ⟨holds, before, after, split⟩ := iht found
                exact ⟨holds, l'.inorder ++ b :: (r'.inorder ++ before), after, by
                  simp [inorder, split]⟩

theorem mem_of_find? {F : Forest α} {a : α} {l r : Forest α} (found : F.find? p = some (a, l, r)) :
    a ∈ F.inorder := by
  obtain ⟨-, before, after, split⟩ := find?_split found
  rw [split]
  simp

end Search

section Update

variable {p : α → Bool} {here : α → Forest α → Forest α → α × Forest α × Forest α} {above : α → α}

theorem updateAt_eq_none_iff {F : Forest α} :
    F.updateAt p here above = none ↔ F.find? p = none := by
  induction F with
  | nil => simp [updateAt, find?]
  | cons a l r t ihl ihr iht =>
      unfold updateAt find?
      by_cases hit : p a = true
      · simp [hit]
      · rw [if_neg hit, if_neg hit]
        cases hl : l.updateAt p here above with
        | some l' =>
            cases hf : l.find? p with
            | some found => simp
            | none => rw [ihl.mpr hf] at hl; cases hl
        | none =>
            rw [ihl.mp hl]
            cases hr : r.updateAt p here above with
            | some r' =>
                cases hf : r.find? p with
                | some found => simp
                | none => rw [ihr.mpr hf] at hr; cases hr
            | none =>
                rw [ihr.mp hr]
                simp [iht]

/-- The branch `updateAt` takes: at this node, to the left, to the right, or in the rest. -/
theorem updateAt_cases {a : α} {l r t F' : Forest α}
    (updated : (cons a l r t).updateAt p here above = some F') :
    (p a = true ∧ F' = cons (here a l r).1 (here a l r).2.1 (here a l r).2.2 t) ∨
    (¬ p a = true ∧ ∃ l', l.updateAt p here above = some l' ∧ F' = cons (above a) l' r t) ∨
    (¬ p a = true ∧ l.find? p = none ∧ ∃ r', r.updateAt p here above = some r' ∧
      F' = cons (above a) l r' t) ∨
    (¬ p a = true ∧ l.find? p = none ∧ r.find? p = none ∧
      ∃ t', t.updateAt p here above = some t' ∧ F' = cons a l r t') := by
  unfold updateAt at updated
  by_cases hit : p a = true
  · rw [if_pos hit] at updated
    exact Or.inl ⟨hit, (Option.some.inj updated).symm⟩
  · rw [if_neg hit] at updated
    cases hl : l.updateAt p here above with
    | some l' =>
        rw [hl] at updated
        exact Or.inr (Or.inl ⟨hit, l', rfl, (Option.some.inj updated).symm⟩)
    | none =>
        rw [hl] at updated
        cases hr : r.updateAt p here above with
        | some r' =>
            rw [hr] at updated
            exact Or.inr (Or.inr (Or.inl
              ⟨hit, updateAt_eq_none_iff.mp hl, r', rfl, (Option.some.inj updated).symm⟩))
        | none =>
            rw [hr] at updated
            obtain ⟨t', ht, rfl⟩ := Option.map_eq_some_iff.mp updated
            exact Or.inr (Or.inr (Or.inr
              ⟨hit, updateAt_eq_none_iff.mp hl, updateAt_eq_none_iff.mp hr, t', ht, rfl⟩))

/-- What an update does to the traversal, seen through a map that the path rewriting keeps: only the
found node's own stretch changes. -/
theorem updateAt_split {F F' : Forest α} (f : α → β) (kept : ∀ a, f (above a) = f a)
    (updated : F.updateAt p here above = some F') :
    ∃ a l r before after, F.find? p = some (a, l, r) ∧
      F.inorder.map f = before ++ (l.inorder.map f ++ f a :: r.inorder.map f) ++ after ∧
      F'.inorder.map f = before ++ ((here a l r).2.1.inorder.map f ++
        f (here a l r).1 :: (here a l r).2.2.inorder.map f) ++ after := by
  induction F generalizing F' with
  | nil => simp [updateAt] at updated
  | cons b l' r' t ihl ihr iht =>
      rcases updateAt_cases updated with ⟨hit, rfl⟩ | ⟨hit, inner, inl, rfl⟩ |
        ⟨hit, noLeft, inner, inr, rfl⟩ | ⟨hit, noLeft, noRight, inner, inTail, rfl⟩
      · exact ⟨b, l', r', [], t.inorder.map f, by simp [find?, hit], by simp [inorder],
          by simp [inorder]⟩
      · obtain ⟨a, l, r, before, after, found, old, new⟩ := ihl inl
        refine ⟨a, l, r, before, after ++ f b :: (r'.inorder.map f ++ t.inorder.map f), ?_, ?_, ?_⟩
        · simp [find?, hit, found]
        · simp [inorder, old]
        · simp [inorder, new, kept]
      · obtain ⟨a, l, r, before, after, found, old, new⟩ := ihr inr
        refine ⟨a, l, r, l'.inorder.map f ++ f b :: before, after ++ t.inorder.map f, ?_, ?_, ?_⟩
        · simp [find?, hit, noLeft, found]
        · simp [inorder, old]
        · simp [inorder, new, kept]
      · obtain ⟨a, l, r, before, after, found, old, new⟩ := iht inTail
        refine ⟨a, l, r, l'.inorder.map f ++ f b :: (r'.inorder.map f ++ before), after, ?_, ?_, ?_⟩
        · simp [find?, hit, noLeft, noRight, found]
        · simp [inorder, old]
        · simp [inorder, new]

/-- An update seen through a map: a test, a node rewriting and a path rewriting that factor through
the map act on the mapped forest. -/
theorem map_updateAt (f : α → β) {q : β → Bool}
    {here' : β → Forest β → Forest β → β × Forest β × Forest β} {above' : β → β}
    (test : ∀ a, p a = q (f a)) (path : ∀ a, f (above a) = above' (f a))
    (node : ∀ a l r, (f (here a l r).1, (here a l r).2.1.map f, (here a l r).2.2.map f) =
      here' (f a) (l.map f) (r.map f)) (F : Forest α) :
    (F.updateAt p here above).map (map f) = (F.map f).updateAt q here' above' := by
  induction F with
  | nil => rfl
  | cons a l r t ihl ihr iht =>
      simp only [map_cons, updateAt, ← ihl, ← ihr, ← iht, ← test, ← node]
      by_cases hit : p a = true
      · simp [hit]
      · simp only [if_neg hit]
        cases l.updateAt p here above with
        | some l' => simp [path]
        | none =>
            cases r.updateAt p here above with
            | some r' => simp [path]
            | none => cases t.updateAt p here above <;> simp

end Update

/-! ### The leftmost node -/

/-- Follow the first left child down to a node without left children. -/
def leftmost (a : α) : Forest α → α
  | nil => a
  | cons b l _ _ => leftmost b l

/-- The traversal of a row starts at the leftmost node of its first tree. -/
theorem head?_inorder_cons (a : α) (l r t : Forest α) :
    (cons a l r t).inorder.head? = some (leftmost a l) := by
  induction l generalizing a r t with
  | nil => rfl
  | cons b l' r' t' ihl _ _ =>
      have head := ihl b r' t'
      rw [inorder, List.head?_append, head]
      rfl

end Forest

end SidedForest
