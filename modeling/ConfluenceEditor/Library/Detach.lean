/-
Taking a leaf out of a forest.

`detach` takes out the first node that satisfies a test, together with its rows, and rewrites the
labels above it. Taking out a node without children keeps the rows placed and sorted, takes one
label out of the traversal, and keeps the stored sizes when the labels above it lose the leaf's
weight.
-/

import ConfluenceEditor.Library.Sized

namespace SidedForest

namespace Forest

variable {α β κ : Type}

/-- Take out the first node that satisfies `p` and rewrite every label above it by `above`. -/
def detach (p : α → Bool) (above : α → α) : Forest α → Option (Forest α)
  | nil => none
  | cons a l r t =>
      if p a then some t
      else match l.detach p above with
        | some l' => some (cons (above a) l' r t)
        | none => match r.detach p above with
          | some r' => some (cons (above a) l r' t)
          | none => (t.detach p above).map (cons a l r)

section Detach

variable {p : α → Bool} {above : α → α}

theorem detach_eq_none_iff {F : Forest α} : F.detach p above = none ↔ F.find? p = none := by
  induction F with
  | nil => simp [detach, find?]
  | cons a l r t ihl ihr iht =>
      unfold detach find?
      by_cases hit : p a = true
      · simp [hit]
      · rw [if_neg hit, if_neg hit]
        cases hl : l.detach p above with
        | some l' =>
            cases hf : l.find? p with
            | some found => simp
            | none => rw [ihl.mpr hf] at hl; cases hl
        | none =>
            rw [ihl.mp hl]
            cases hr : r.detach p above with
            | some r' =>
                cases hf : r.find? p with
                | some found => simp
                | none => rw [ihr.mpr hf] at hr; cases hr
            | none =>
                rw [ihr.mp hr]
                simp [iht]

/-- The branch `detach` takes: this node, to the left, to the right, or in the rest. -/
theorem detach_cases {a : α} {l r t F' : Forest α}
    (detached : (cons a l r t).detach p above = some F') :
    (p a = true ∧ F' = t) ∨
    (¬ p a = true ∧ ∃ l', l.detach p above = some l' ∧ F' = cons (above a) l' r t) ∨
    (¬ p a = true ∧ l.find? p = none ∧ ∃ r', r.detach p above = some r' ∧
      F' = cons (above a) l r' t) ∨
    (¬ p a = true ∧ l.find? p = none ∧ r.find? p = none ∧
      ∃ t', t.detach p above = some t' ∧ F' = cons a l r t') := by
  unfold detach at detached
  by_cases hit : p a = true
  · rw [if_pos hit] at detached
    exact Or.inl ⟨hit, (Option.some.inj detached).symm⟩
  · rw [if_neg hit] at detached
    cases hl : l.detach p above with
    | some l' =>
        rw [hl] at detached
        exact Or.inr (Or.inl ⟨hit, l', rfl, (Option.some.inj detached).symm⟩)
    | none =>
        rw [hl] at detached
        cases hr : r.detach p above with
        | some r' =>
            rw [hr] at detached
            exact Or.inr (Or.inr (Or.inl
              ⟨hit, detach_eq_none_iff.mp hl, r', rfl, (Option.some.inj detached).symm⟩))
        | none =>
            rw [hr] at detached
            obtain ⟨t', ht, rfl⟩ := Option.map_eq_some_iff.mp detached
            exact Or.inr (Or.inr (Or.inr
              ⟨hit, detach_eq_none_iff.mp hl, detach_eq_none_iff.mp hr, t', ht, rfl⟩))

theorem map_detach (f : α → β) {q : β → Bool} (test : ∀ a, p a = q (f a))
    (path : ∀ a, f (above a) = f a) (F : Forest α) :
    (F.detach p above).map (map f) = (F.map f).detach q id := by
  induction F with
  | nil => rfl
  | cons a l r t ihl ihr iht =>
      simp only [map_cons, detach, ← ihl, ← ihr, ← iht, ← test]
      by_cases hit : p a = true
      · simp [hit]
      · simp only [if_neg hit]
        cases l.detach p above with
        | some l' => simp [path]
        | none =>
            cases r.detach p above with
            | some r' => simp [path]
            | none => cases t.detach p above <;> simp

variable {F F' : Forest α} {a : α}

/-- Where `detach` finds a leaf. -/
theorem detach_leaf_cases {b : α} {l r t : Forest α}
    (leaf : (cons b l r t).find? p = some (a, nil, nil))
    (detached : (cons b l r t).detach p above = some F') :
    (b = a ∧ l = nil ∧ r = nil ∧ F' = t) ∨
    (∃ l', l.find? p = some (a, nil, nil) ∧ l.detach p above = some l' ∧
      F' = cons (above b) l' r t) ∨
    (∃ r', r.find? p = some (a, nil, nil) ∧ r.detach p above = some r' ∧
      F' = cons (above b) l r' t) ∨
    ∃ t', t.find? p = some (a, nil, nil) ∧ t.detach p above = some t' ∧ F' = cons b l r t' := by
  have isSome : ∀ {G G' : Forest α}, G.detach p above = some G' → ∃ found, G.find? p = some found :=
    fun {G G'} taken => by
      cases found : G.find? p with
      | none => rw [detach_eq_none_iff.mpr found] at taken; cases taken
      | some inner => exact ⟨inner, rfl⟩
  rcases detach_cases detached with ⟨hit, rfl⟩ | ⟨miss, l', inl, rfl⟩ |
    ⟨miss, noLeft, r', inr, rfl⟩ | ⟨miss, noLeft, noRight, t', inTail, rfl⟩
  · obtain ⟨rfl, rfl, rfl⟩ : b = a ∧ l = nil ∧ r = nil := by simpa [find?, hit] using leaf
    exact Or.inl ⟨rfl, rfl, rfl, rfl⟩
  · obtain ⟨found, inner⟩ := isSome inl
    exact Or.inr (Or.inl ⟨l', by simpa [find?, miss, inner] using leaf, inl, rfl⟩)
  · obtain ⟨found, inner⟩ := isSome inr
    exact Or.inr (Or.inr (Or.inl
      ⟨r', by simpa [find?, miss, noLeft, inner] using leaf, inr, rfl⟩))
  · exact Or.inr (Or.inr (Or.inr
      ⟨t', by simpa [find?, miss, noLeft, noRight] using leaf, inTail, rfl⟩))

/-- A leaf leaves the traversal. -/
theorem detach_split (leaf : F.find? p = some (a, nil, nil)) (detached : F.detach p id = some F') :
    ∃ before after, F.inorder = before ++ a :: after ∧ F'.inorder = before ++ after := by
  induction F generalizing F' with
  | nil => simp [detach] at detached
  | cons b l r t ihl ihr iht =>
      rcases detach_leaf_cases leaf detached with ⟨rfl, rfl, rfl, rfl⟩ | ⟨l', found, inl, rfl⟩ |
        ⟨r', found, inr, rfl⟩ | ⟨t', found, inTail, rfl⟩
      · exact ⟨[], F'.inorder, rfl, rfl⟩
      · obtain ⟨before, after, old, new⟩ := ihl found inl
        exact ⟨before, after ++ b :: (r.inorder ++ t.inorder), by simp [inorder, old],
          by simp [inorder, new]⟩
      · obtain ⟨before, after, old, new⟩ := ihr found inr
        exact ⟨l.inorder ++ b :: before, after ++ t.inorder, by simp [inorder, old],
          by simp [inorder, new]⟩
      · obtain ⟨before, after, old, new⟩ := iht found inTail
        exact ⟨l.inorder ++ b :: (r.inorder ++ before), after, by simp [inorder, old],
          by simp [inorder, new]⟩

theorem Placed.detach {key : α → κ} {parent : α → Option κ} {side : α → Side} {k : Option κ}
    {s : Side} (placed : F.Placed key parent side k s) (detached : F.detach p id = some F') :
    F'.Placed key parent side k s := by
  induction F generalizing F' k s with
  | nil => simp [Forest.detach] at detached
  | cons b l r t ihl ihr iht =>
      obtain ⟨here, onSide, pl, pr, pt⟩ := placed
      rcases detach_cases detached with ⟨-, rfl⟩ | ⟨-, l', inl, rfl⟩ | ⟨-, -, r', inr, rfl⟩ |
        ⟨-, -, -, t', inTail, rfl⟩
      · exact pt
      · exact ⟨here, onSide, ihl pl inl, pr, pt⟩
      · exact ⟨here, onSide, pl, ihr pr inr, pt⟩
      · exact ⟨here, onSide, pl, pr, iht pt inTail⟩

theorem mem_roots_detach {x : α} (detached : F.detach p id = some F') (root : x ∈ F'.roots) :
    x ∈ F.roots := by
  induction F generalizing F' with
  | nil => simp [detach] at detached
  | cons b l r t _ _ iht =>
      rcases detach_cases detached with ⟨-, rfl⟩ | ⟨-, l', -, rfl⟩ | ⟨-, -, r', -, rfl⟩ |
        ⟨-, -, -, t', inTail, rfl⟩
      · exact List.mem_cons_of_mem _ root
      · exact root
      · exact root
      · rcases List.mem_cons.mp root with rfl | later
        · exact List.mem_cons_self
        · exact List.mem_cons_of_mem _ (iht inTail later)

theorem Ordered.detach {R : α → α → Prop} (ordered : F.Ordered R)
    (detached : F.detach p id = some F') : F'.Ordered R := by
  induction F generalizing F' with
  | nil => simp [Forest.detach] at detached
  | cons b l r t ihl ihr iht =>
      obtain ⟨first, ol, or, ot⟩ := ordered
      rcases detach_cases detached with ⟨-, rfl⟩ | ⟨-, l', inl, rfl⟩ | ⟨-, -, r', inr, rfl⟩ |
        ⟨-, -, -, t', inTail, rfl⟩
      · exact ot
      · exact ⟨first, ihl ol inl, or, ot⟩
      · exact ⟨first, ol, ihr or inr, ot⟩
      · exact ⟨fun x root => first x (mem_roots_detach inTail root), ol, or, iht ot inTail⟩

/-- The labels above a leaf lose its weight. -/
theorem Sized.detach {w stored : α → Int} (sized : F.Sized w stored)
    (leaf : F.find? p = some (a, nil, nil))
    (path : ∀ b, stored (above b) = stored b - w a ∧ w (above b) = w b)
    (detached : F.detach p above = some F') :
    F'.Sized w stored ∧ F'.total w = F.total w - w a := by
  induction F generalizing F' with
  | nil => simp [Forest.detach] at detached
  | cons b l r t ihl ihr iht =>
      obtain ⟨size, sl, sr, st⟩ := sized
      rcases detach_leaf_cases leaf detached with ⟨rfl, rfl, rfl, rfl⟩ | ⟨l', found, inl, rfl⟩ |
        ⟨r', found, inr, rfl⟩ | ⟨t', found, inTail, rfl⟩
      · refine ⟨st, ?_⟩
        simp only [total_cons, total_nil]
        omega
      · obtain ⟨s, change⟩ := ihl sl found inl
        refine ⟨⟨?_, s, sr, st⟩, ?_⟩
        · rw [(path b).1, (path b).2, change, size]
          omega
        · simp only [total_cons, (path b).2, change]
          omega
      · obtain ⟨s, change⟩ := ihr sr found inr
        refine ⟨⟨?_, sl, s, st⟩, ?_⟩
        · rw [(path b).1, (path b).2, change, size]
          omega
        · simp only [total_cons, (path b).2, change]
          omega
      · obtain ⟨s, change⟩ := iht st found inTail
        refine ⟨⟨size, sl, sr, s⟩, ?_⟩
        simp only [total_cons, change]
        omega

end Detach

end Forest

open Forest

/-- `detach` in the left row, then in the right row. -/
def detachIn {α : Type} (p : α → Bool) (above : α → α) (left right : Forest α) :
    Option (Forest α × Forest α) :=
  match left.detach p above with
  | some left' => some (left', right)
  | none => (right.detach p above).map fun right' => (left, right')

section DetachIn

variable {α β κ : Type} {p : α → Bool} {above : α → α} {left right left' right' : Forest α} {a : α}

/-- A leaf is taken out of the left row, or of the right row when the left one has no such node. -/
theorem detachIn_cases (leaf : findIn p left right = some (a, nil, nil))
    (detached : detachIn p above left right = some (left', right')) :
    (left.find? p = some (a, nil, nil) ∧ left.detach p above = some left' ∧ right' = right) ∨
    (left.find? p = none ∧ right.find? p = some (a, nil, nil) ∧ right.detach p above = some right' ∧
      left' = left) := by
  unfold detachIn at detached
  unfold findIn at leaf
  cases taken : left.detach p above with
  | some row =>
      rw [taken] at detached
      obtain ⟨rfl, rfl⟩ := Prod.mk.inj (Option.some.inj detached)
      cases found : left.find? p with
      | none => rw [detach_eq_none_iff.mpr found] at taken; cases taken
      | some inner =>
          rw [found, Option.some_or] at leaf
          exact Or.inl ⟨leaf, rfl, rfl⟩
  | none =>
      rw [taken] at detached
      obtain ⟨row, inRight, same⟩ := Option.map_eq_some_iff.mp detached
      obtain ⟨rfl, rfl⟩ := Prod.mk.inj same
      have noLeft := detach_eq_none_iff.mp taken
      rw [noLeft, Option.none_or] at leaf
      exact Or.inr ⟨noLeft, leaf, inRight, rfl⟩

theorem detachIn_isSome (leaf : findIn p left right = some (a, nil, nil)) :
    ∃ rows, detachIn p above left right = some rows := by
  unfold detachIn
  cases taken : left.detach p above with
  | some row => exact ⟨_, rfl⟩
  | none =>
      rw [findIn, detach_eq_none_iff.mp taken, Option.none_or] at leaf
      cases inRight : right.detach p above with
      | some row => exact ⟨_, rfl⟩
      | none => rw [detach_eq_none_iff.mp inRight] at leaf; cases leaf

theorem map_detachIn (f : α → β) {q : β → Bool} (test : ∀ a, p a = q (f a))
    (path : ∀ a, f (above a) = f a) (detached : detachIn p above left right = some (left', right')) :
    detachIn q id (left.map f) (right.map f) = some (left'.map f, right'.map f) := by
  unfold detachIn at detached ⊢
  rw [← map_detach f test path, ← map_detach f test path]
  cases taken : left.detach p above with
  | some row =>
      rw [taken] at detached
      obtain ⟨rfl, rfl⟩ := Prod.mk.inj (Option.some.inj detached)
      rfl
  | none =>
      rw [taken] at detached
      obtain ⟨row, inRight, same⟩ := Option.map_eq_some_iff.mp detached
      obtain ⟨rfl, rfl⟩ := Prod.mk.inj same
      rw [inRight]
      rfl

/-- A leaf leaves the traversal of the two rows. -/
theorem detachIn_split (leaf : findIn p left right = some (a, nil, nil))
    (detached : detachIn p id left right = some (left', right')) :
    ∃ before after, left.inorder ++ right.inorder = before ++ a :: after ∧
      left'.inorder ++ right'.inorder = before ++ after := by
  rcases detachIn_cases leaf detached with ⟨found, taken, rfl⟩ | ⟨-, found, taken, rfl⟩
  · obtain ⟨before, after, old, new⟩ := detach_split found taken
    exact ⟨before, after ++ right'.inorder, by simp [old], by simp [new]⟩
  · obtain ⟨before, after, old, new⟩ := detach_split found taken
    exact ⟨left'.inorder ++ before, after, by simp [old], by simp [new]⟩

theorem Rows.detach {key : α → κ} {parent : α → Option κ} {side : α → Side} {R : α → α → Prop}
    [DecidableEq κ] (rows : Rows key parent side R left right)
    (leaf : findIn p left right = some (a, nil, nil))
    (detached : detachIn p id left right = some (left', right')) :
    Rows key parent side R left' right' := by
  obtain ⟨before, after, old, new⟩ := detachIn_split leaf detached
  have distinct : ((left'.inorder ++ right'.inorder).map key).Nodup := by
    have sub : (before ++ after).Sublist (before ++ a :: after) :=
      (List.Sublist.refl before).append (List.sublist_cons_self a after)
    rw [new]
    exact (old ▸ rows.distinct).sublist (sub.map key)
  rcases detachIn_cases leaf detached with ⟨-, taken, rfl⟩ | ⟨-, -, taken, rfl⟩
  · exact ⟨rows.placedLeft.detach taken, rows.placedRight, rows.orderedLeft.detach taken,
      rows.orderedRight, distinct⟩
  · exact ⟨rows.placedLeft, rows.placedRight.detach taken, rows.orderedLeft,
      rows.orderedRight.detach taken, distinct⟩

/-- `Sized.detach` for the two root rows. -/
theorem sized_detachIn {w stored : α → Int} (sized : left.Sized w stored ∧ right.Sized w stored)
    (leaf : findIn p left right = some (a, nil, nil))
    (path : ∀ b, stored (above b) = stored b - w a ∧ w (above b) = w b)
    (detached : detachIn p above left right = some (left', right')) :
    (left'.Sized w stored ∧ right'.Sized w stored) ∧
      left'.total w + right'.total w = left.total w + right.total w - w a := by
  rcases detachIn_cases leaf detached with ⟨found, taken, rfl⟩ | ⟨-, found, taken, rfl⟩
  · obtain ⟨s, change⟩ := sized.1.detach found path taken
    exact ⟨⟨s, sized.2⟩, by omega⟩
  · obtain ⟨s, change⟩ := sized.2.detach found path taken
    exact ⟨⟨sized.1, s⟩, by omega⟩

end DetachIn

end SidedForest
