/-
The two root rows of a tree whose root carries no label.

`findIn` and `updateIn` search the left row, then the right row; they inherit the laws of `find?`
and `updateAt`. The second half says what each change keeps: a root row may take a new sibling
(`Rows.insertIn`), a node may take a new child (`Rows.attach`), and a label may be rewritten
(`Rows.updateIn_relabel`).
-/

import ConfluenceEditor.Library.Attach

namespace SidedForest

open Forest

set_option linter.unusedSectionVars false

variable {α β κ : Type}

/-- The first node of the two rows that satisfies `p`, with its children. -/
def findIn (p : α → Bool) (left right : Forest α) : Option (α × Forest α × Forest α) :=
  (left.find? p).or (right.find? p)

/-- `updateAt` on the left row, then on the right row. -/
def updateIn (p : α → Bool) (here : α → Forest α → Forest α → α × Forest α × Forest α)
    (above : α → α) (left right : Forest α) : Option (Forest α × Forest α) :=
  match left.updateAt p here above with
  | some left' => some (left', right)
  | none => (right.updateAt p here above).map fun right' => (left, right')

/-- A new root on side `s`. -/
def insertIn (less : α → α → Bool) (s : Side) (n : α) (left right : Forest α) :
    Forest α × Forest α :=
  s.pick (left.insertSibling less n, right) (left, right.insertSibling less n)

theorem map_insertIn {less : α → α → Bool} (less' : β → β → Bool) (f : α → β)
    (same : ∀ a b, less' (f a) (f b) = less a b) (s : Side) (n : α) (left right : Forest α) :
    ((insertIn less s n left right).1.map f, (insertIn less s n left right).2.map f) =
      insertIn less' s (f n) (left.map f) (right.map f) := by
  cases s <;> simp [insertIn, map_insertSibling less' f same]

theorem insertIn_congr {less less' : α → α → Bool} {n : α} (same : ∀ b, less n b = less' n b)
    (s : Side) (left right : Forest α) :
    insertIn less s n left right = insertIn less' s n left right := by
  rw [insertIn, insertIn, insertSibling_congr same, insertSibling_congr same]

theorem insertIn_split (less : α → α → Bool) (s : Side) (n : α) (left right : Forest α) :
    ∃ before after, left.inorder ++ right.inorder = before ++ after ∧
      (insertIn less s n left right).1.inorder ++ (insertIn less s n left right).2.inorder =
        before ++ n :: after := by
  cases s with
  | L =>
      obtain ⟨before, after, old, new⟩ := inorder_insertSibling less n left
      exact ⟨before, after ++ right.inorder, by simp [old], by simp [insertIn, new]⟩
  | R =>
      obtain ⟨before, after, old, new⟩ := inorder_insertSibling less n right
      exact ⟨left.inorder ++ before, after, by simp [old], by simp [insertIn, new]⟩

section UpdateIn

variable {p : α → Bool} {here : α → Forest α → Forest α → α × Forest α × Forest α} {above : α → α}
  {left right : Forest α}

theorem findIn_eq_none_iff :
    findIn p left right = none ↔ ∀ x ∈ left.inorder ++ right.inorder, ¬ p x = true := by
  rw [findIn, Option.or_eq_none_iff, find?_eq_none_iff, find?_eq_none_iff]
  simp only [List.mem_append, or_imp, forall_and]

theorem findIn_split {a : α} {l r : Forest α} (found : findIn p left right = some (a, l, r)) :
    p a = true ∧ ∃ before after,
      left.inorder ++ right.inorder = before ++ (l.inorder ++ a :: r.inorder) ++ after := by
  rcases Option.or_eq_some_iff.mp found with inl | ⟨-, inr⟩
  · obtain ⟨hit, before, after, split⟩ := find?_split inl
    exact ⟨hit, before, after ++ right.inorder, by simp [split]⟩
  · obtain ⟨hit, before, after, split⟩ := find?_split inr
    exact ⟨hit, left.inorder ++ before, after, by simp [split]⟩

theorem updateIn_eq_none_iff : updateIn p here above left right = none ↔
    findIn p left right = none := by
  unfold updateIn findIn
  cases hl : left.updateAt p here above with
  | some left' =>
      cases hf : left.find? p with
      | some found => simp
      | none => rw [updateAt_eq_none_iff.mpr hf] at hl; cases hl
  | none =>
      rw [updateAt_eq_none_iff.mp hl]
      simp [updateAt_eq_none_iff]

/-- An update happens in the left row, or in the right row when the left one has no such node. -/
theorem updateIn_cases {rows : Forest α × Forest α}
    (updated : updateIn p here above left right = some rows) :
    (∃ left', left.updateAt p here above = some left' ∧ rows = (left', right)) ∨
    (left.find? p = none ∧ ∃ right', right.updateAt p here above = some right' ∧
      rows = (left, right')) := by
  unfold updateIn at updated
  cases hl : left.updateAt p here above with
  | some left' =>
      rw [hl] at updated
      exact Or.inl ⟨left', rfl, (Option.some.inj updated).symm⟩
  | none =>
      rw [hl] at updated
      obtain ⟨right', hr, rfl⟩ := Option.map_eq_some_iff.mp updated
      exact Or.inr ⟨updateAt_eq_none_iff.mp hl, right', hr, rfl⟩

theorem updateIn_split {left' right' : Forest α} (f : α → β) (kept : ∀ a, f (above a) = f a)
    (updated : updateIn p here above left right = some (left', right')) :
    ∃ a l r before after, findIn p left right = some (a, l, r) ∧
      (left.inorder ++ right.inorder).map f =
        before ++ (l.inorder.map f ++ f a :: r.inorder.map f) ++ after ∧
      (left'.inorder ++ right'.inorder).map f = before ++ ((here a l r).2.1.inorder.map f ++
        f (here a l r).1 :: (here a l r).2.2.inorder.map f) ++ after := by
  rcases updateIn_cases updated with ⟨left'', inl, same⟩ | ⟨noLeft, right'', inr, same⟩
  · obtain ⟨rfl, rfl⟩ := Prod.mk.inj same
    obtain ⟨a, l, r, before, after, found, old, new⟩ := updateAt_split f kept inl
    exact ⟨a, l, r, before, after ++ right'.inorder.map f, by simp [findIn, found],
      by simp [old], by simp [new]⟩
  · obtain ⟨rfl, rfl⟩ := Prod.mk.inj same
    obtain ⟨a, l, r, before, after, found, old, new⟩ := updateAt_split f kept inr
    exact ⟨a, l, r, left'.inorder.map f ++ before, after, by simp [findIn, noLeft, found],
      by simp [old], by simp [new]⟩

theorem map_updateIn (f : α → β) {q : β → Bool}
    {here' : β → Forest β → Forest β → β × Forest β × Forest β} {above' : β → β}
    (test : ∀ a, p a = q (f a)) (path : ∀ a, f (above a) = above' (f a))
    (node : ∀ a l r, (f (here a l r).1, (here a l r).2.1.map f, (here a l r).2.2.map f) =
      here' (f a) (l.map f) (r.map f)) {left' right' : Forest α}
    (updated : updateIn p here above left right = some (left', right')) :
    updateIn q here' above' (left.map f) (right.map f) = some (left'.map f, right'.map f) := by
  unfold updateIn at updated ⊢
  rw [← map_updateAt f test path node, ← map_updateAt f test path node]
  cases hl : left.updateAt p here above with
  | some left'' =>
      rw [hl] at updated
      obtain ⟨rfl, rfl⟩ := Prod.mk.inj (Option.some.inj updated)
      rfl
  | none =>
      rw [hl] at updated
      obtain ⟨right'', hr, same⟩ := Option.map_eq_some_iff.mp updated
      obtain ⟨rfl, rfl⟩ := Prod.mk.inj same
      rw [hr]
      rfl

end UpdateIn

/-! ### What a change keeps -/

namespace Rows

variable [DecidableEq κ] {key : α → κ} {parent : α → Option κ} {side : α → Side}
  {R : α → α → Prop} {less : α → α → Bool} {left right left' right' : Forest α} {n : α}

theorem distinct_of_split {before after old new : List α} (distinct : (old.map key).Nodup)
    (fresh : ∀ x ∈ old, key x ≠ key n) (split : old = before ++ after)
    (added : new = before ++ n :: after) : (new.map key).Nodup := by
  subst split added
  have shuffled : ((before ++ n :: after).map key).Perm (key n :: (before ++ after).map key) :=
    List.perm_middle.map key
  rw [shuffled.nodup_iff, List.nodup_cons]
  refine ⟨fun member => ?_, distinct⟩
  obtain ⟨x, inside, same⟩ := List.mem_map.mp member
  exact fresh x inside same

/-- A fresh node may become a root, on either side. -/
theorem insertIn (rows : Rows key parent side R left right) (sorts : Sorts less R)
    (orphan : parent n = none) (fresh : ∀ x ∈ left.inorder ++ right.inorder, key x ≠ key n) :
    Rows key parent side R (SidedForest.insertIn less (side n) n left right).1
      (SidedForest.insertIn less (side n) n left right).2 := by
  obtain ⟨before, after, old, new⟩ := insertIn_split less (side n) n left right
  have distinct := distinct_of_split rows.distinct fresh old new
  cases onSide : side n with
  | L =>
      rw [onSide] at distinct
      exact ⟨rows.placedLeft.insertSibling orphan onSide, rows.placedRight,
        rows.orderedLeft.insertSibling sorts, rows.orderedRight, distinct⟩
  | R =>
      rw [onSide] at distinct
      exact ⟨rows.placedLeft, rows.placedRight.insertSibling orphan onSide,
        rows.orderedLeft, rows.orderedRight.insertSibling sorts, distinct⟩

/-- Where a child on side `s` of the node with key `k` enters the traversal. -/
theorem updateIn_withChild_split {k : κ} {s : Side}
    (updated : updateIn (key · = k) (withChild less s n) id left right = some (left', right')) :
    ∃ before after, left.inorder ++ right.inorder = before ++ after ∧
      left'.inorder ++ right'.inorder = before ++ n :: after := by
  obtain ⟨a, l, r, before, after, -, old, new⟩ := updateIn_split id (fun _ => rfl) updated
  simp only [List.map_id, id] at old new
  cases s with
  | L =>
      obtain ⟨first, second, split, added⟩ := inorder_insertSibling less n l
      exact ⟨before ++ first, second ++ a :: r.inorder ++ after, by simp [old, split],
        by simp [new, withChild, added]⟩
  | R =>
      obtain ⟨first, second, split, added⟩ := inorder_insertSibling less n r
      exact ⟨before ++ (l.inorder ++ a :: first), second ++ after, by simp [old, split],
        by simp [new, withChild, added]⟩

/-- The only right child of a node stands immediately after it. -/
theorem updateIn_firstRight {p : α → Bool} {a : α} {l : Forest α}
    (found : findIn p left right = some (a, l, nil))
    (updated : updateIn p (withChild less .R n) id left right = some (left', right')) :
    ∃ before after, left.inorder ++ right.inorder = before ++ a :: after ∧
      left'.inorder ++ right'.inorder = before ++ a :: n :: after := by
  obtain ⟨a', l', r', before, after, found', old, new⟩ := updateIn_split id (fun _ => rfl) updated
  obtain ⟨rfl, rfl, rfl⟩ : a = a' ∧ l = l' ∧ nil = r' := by simpa using found.symm.trans found'
  simp only [List.map_id, id] at old new
  exact ⟨before ++ l.inorder, after, by simp [old], by
    simp [new, withChild, insertSibling, inorder]⟩

/-- The only left child of a node stands immediately before it. -/
theorem updateIn_firstLeft {p : α → Bool} {a : α} {r : Forest α}
    (found : findIn p left right = some (a, nil, r))
    (updated : updateIn p (withChild less .L n) id left right = some (left', right')) :
    ∃ before after, left.inorder ++ right.inorder = before ++ a :: after ∧
      left'.inorder ++ right'.inorder = before ++ n :: a :: after := by
  obtain ⟨a', l', r', before, after, found', old, new⟩ := updateIn_split id (fun _ => rfl) updated
  obtain ⟨rfl, rfl, rfl⟩ : a = a' ∧ nil = l' ∧ r = r' := by simpa using found.symm.trans found'
  simp only [List.map_id, id] at old new
  exact ⟨before, r.inorder ++ after, by simp [old], by
    simp [new, withChild, insertSibling, inorder]⟩

/-- A fresh node may become a child of any node. -/
theorem attach (rows : Rows key parent side R left right) (sorts : Sorts less R) {k : κ}
    (under : parent n = some k) (fresh : ∀ x ∈ left.inorder ++ right.inorder, key x ≠ key n)
    (updated : updateIn (key · = k) (withChild less (side n) n) id left right =
      some (left', right')) :
    Rows key parent side R left' right' := by
  obtain ⟨before, after, old, new⟩ := updateIn_withChild_split updated
  have distinct := distinct_of_split rows.distinct fresh old new
  rcases updateIn_cases updated with ⟨left'', inl, same⟩ | ⟨-, right'', inr, same⟩
  · obtain ⟨rfl, rfl⟩ := Prod.mk.inj same
    exact ⟨rows.placedLeft.attach under rfl inl, rows.placedRight,
      rows.orderedLeft.attach sorts inl, rows.orderedRight, distinct⟩
  · obtain ⟨rfl, rfl⟩ := Prod.mk.inj same
    exact ⟨rows.placedLeft, rows.placedRight.attach under rfl inr, rows.orderedLeft,
      rows.orderedRight.attach sorts inr, distinct⟩

/-- With distinct keys, rewriting the label with key `k` is a map of both rows. -/
theorem updateIn_relabel {k : κ} {g : α → α}
    (distinct : ((left.inorder ++ right.inorder).map key).Nodup)
    (updated : updateIn (key · = k) (fun a l r => (g a, l, r)) id left right =
      some (left', right')) :
    left' = left.map (fun a => if key a = k then g a else a) ∧
      right' = right.map (fun a => if key a = k then g a else a) := by
  rw [List.map_append, List.nodup_append] at distinct
  obtain ⟨distinctLeft, distinctRight, apart⟩ := distinct
  have foundIn : ∀ {G G' : Forest α},
      G.updateAt (key · = k) (fun a l r => (g a, l, r)) id = some G' →
      ∃ x ∈ G.inorder, key x = k := by
    intro G G' inner
    obtain ⟨x, lx, rx, -, -, found, -, -⟩ := updateAt_split id (fun _ => rfl) inner
    exact ⟨x, mem_of_find? found, by simpa using (find?_split found).1⟩
  rcases updateIn_cases updated with ⟨left'', inl, same⟩ | ⟨-, right'', inr, same⟩
  · obtain ⟨rfl, rfl⟩ := Prod.mk.inj same
    obtain ⟨x, inside, named⟩ := foundIn inl
    refine ⟨relabelAt_eq_map distinctLeft inl, (map_eq_self fun y member => if_neg ?_).symm⟩
    exact fun same => apart _ (List.mem_map_of_mem inside) _ (List.mem_map_of_mem member)
      (named.trans same.symm)
  · obtain ⟨rfl, rfl⟩ := Prod.mk.inj same
    obtain ⟨x, inside, named⟩ := foundIn inr
    refine ⟨(map_eq_self fun y member => if_neg ?_).symm, relabelAt_eq_map distinctRight inr⟩
    exact fun same => apart _ (List.mem_map_of_mem member) _ (List.mem_map_of_mem inside)
      (same.trans named.symm)

end Rows

end SidedForest
