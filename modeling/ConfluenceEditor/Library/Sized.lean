/-
Labels that store a sum over their subtree.

`Sized w stored` says that the field `stored` of every label is the sum of the weight `w` over the
label and both of its rows. A change of one node's subtree by `delta` keeps it when the same `delta`
is added along the path above (`Sized.updateAt`).
-/

import ConfluenceEditor.Library.Subtree
import Mathlib.Algebra.Ring.Int.Defs

namespace SidedForest

namespace Forest

variable {α β : Type} {w stored : α → Int}

/-- The sum of a weight over the labels. -/
def total (w : α → Int) : Forest α → Int
  | nil => 0
  | cons a l r t => w a + l.total w + r.total w + t.total w

@[simp] theorem total_nil : (nil : Forest α).total w = 0 := rfl

@[simp] theorem total_cons (a : α) (l r t : Forest α) :
    (cons a l r t).total w = w a + l.total w + r.total w + t.total w := rfl

theorem total_eq_sum (F : Forest α) : F.total w = (F.inorder.map w).sum := by
  induction F with
  | nil => rfl
  | cons a l r t ihl ihr iht =>
      simp only [total_cons, inorder, List.map_append, List.map_cons, List.sum_append,
        List.sum_cons, ihl, ihr, iht]
      omega

/-- Every stored size is the sum over its subtree. -/
def Sized (w stored : α → Int) : Forest α → Prop
  | nil => True
  | cons a l r t => stored a = w a + l.total w + r.total w ∧
      Sized w stored l ∧ Sized w stored r ∧ Sized w stored t

/-- What a node stores is the sum over its subtree. -/
theorem Sub.stored_eq {a : α} {l r F : Forest α} (sub : Sub a l r F) (sized : F.Sized w stored) :
    stored a = ((l.inorder ++ a :: r.inorder).map w).sum := by
  induction F with
  | nil => cases sub
  | cons b l' r' t ihl ihr iht =>
      have ⟨size, sl, sr, st⟩ := sized
      rcases sub with ⟨node, left, right⟩ | inl | inr | inTail
      · rw [node, left, right, size, total_eq_sum, total_eq_sum, List.map_append, List.map_cons,
          List.sum_append, List.sum_cons]
        omega
      · exact ihl inl sl
      · exact ihr inr sr
      · exact iht inTail st

theorem total_insertSibling {less : α → α → Bool} {n : α} (F : Forest α) :
    (F.insertSibling less n).total w = F.total w + w n := by
  induction F with
  | nil => simp [insertSibling]
  | cons a l r t _ _ iht =>
      unfold insertSibling
      split_ifs
      · simp only [total_cons, total_nil]
        omega
      · simp only [total_cons, iht]
        omega

theorem Sized.insertSibling {less : α → α → Bool} {n : α} (leaf : stored n = w n) {F : Forest α}
    (sized : F.Sized w stored) : (F.insertSibling less n).Sized w stored := by
  induction F with
  | nil => exact ⟨by simp [leaf], trivial, trivial, trivial⟩
  | cons a l r t _ _ iht =>
      unfold Forest.insertSibling
      split_ifs
      · exact ⟨by simp [leaf], trivial, trivial, sized⟩
      · exact ⟨sized.1, sized.2.1, sized.2.2.1, iht sized.2.2.2⟩

/-- An update that changes the found node's subtree by `delta`, and adds `delta` along the path. -/
theorem Sized.updateAt {p : α → Bool} {here : α → Forest α → Forest α → α × Forest α × Forest α}
    {above : α → α} {delta : Int} {F F' : Forest α} (sized : F.Sized w stored)
    (path : ∀ a, stored (above a) = stored a + delta ∧ w (above a) = w a)
    (node : ∀ a l r, F.find? p = some (a, l, r) → (cons a l r nil).Sized w stored →
      (cons (here a l r).1 (here a l r).2.1 (here a l r).2.2 nil).Sized w stored ∧
      (cons (here a l r).1 (here a l r).2.1 (here a l r).2.2 nil).total w =
        (cons a l r nil).total w + delta)
    (updated : F.updateAt p here above = some F') :
    F'.Sized w stored ∧ F'.total w = F.total w + delta := by
  induction F generalizing F' with
  | nil => simp [Forest.updateAt] at updated
  | cons b l' r' t ihl ihr iht =>
      obtain ⟨stored_b, sl, sr, st⟩ := sized
      rcases updateAt_cases updated with ⟨hit, rfl⟩ | ⟨miss, l'', left, rfl⟩ |
        ⟨miss, noLeft, r'', right, rfl⟩ | ⟨miss, noLeft, noRight, t', tail, rfl⟩
      · obtain ⟨⟨s1, s2, s3, -⟩, change⟩ :=
          node b l' r' (by simp [find?, hit]) ⟨stored_b, sl, sr, trivial⟩
        refine ⟨⟨s1, s2, s3, st⟩, ?_⟩
        simp only [total_cons, total_nil] at change ⊢
        omega
      · obtain ⟨s, change⟩ := ihl sl (fun a l r found => node a l r (by simp [find?, miss, found]))
          left
        refine ⟨⟨?_, s, sr, st⟩, ?_⟩
        · rw [(path b).1, (path b).2, change, stored_b]
          omega
        · simp only [total_cons, (path b).2, change]
          omega
      · obtain ⟨s, change⟩ := ihr sr
          (fun a l r found => node a l r (by simp [find?, miss, noLeft, found])) right
        refine ⟨⟨?_, sl, s, st⟩, ?_⟩
        · rw [(path b).1, (path b).2, change, stored_b]
          omega
        · simp only [total_cons, (path b).2, change]
          omega
      · obtain ⟨s, change⟩ := iht st
          (fun a l r found => node a l r (by simp [find?, miss, noLeft, noRight, found])) tail
        refine ⟨⟨stored_b, sl, sr, s⟩, ?_⟩
        simp only [total_cons, change]
        omega

/-- A new leaf among the children of `a`, whose own size grows by the leaf's weight. -/
theorem sized_withChild (w stored : α → Int) {less : α → α → Bool} (n a a' : α) {l r : Forest α}
    (leaf : stored n = w n) (grown : stored a' = stored a + w n) (same : w a' = w a) (s : Side)
    (sized : (cons a l r nil).Sized w stored) :
    let node := withChild less s n a' l r
    (cons node.1 node.2.1 node.2.2 nil).Sized w stored ∧
      (cons node.1 node.2.1 node.2.2 nil).total w = (cons a l r nil).total w + w n := by
  obtain ⟨size, sl, sr, -⟩ := sized
  cases s with
  | L =>
      refine ⟨⟨?_, sl.insertSibling leaf, sr, trivial⟩, ?_⟩
      · simp only [withChild, Side.pick_L, total_insertSibling, grown, same, size]
        omega
      · simp only [withChild, Side.pick_L, total_cons, total_nil, total_insertSibling, same]
        omega
  | R =>
      refine ⟨⟨?_, sl, sr.insertSibling leaf, trivial⟩, ?_⟩
      · simp only [withChild, Side.pick_R, total_insertSibling, grown, same, size]
        omega
      · simp only [withChild, Side.pick_R, total_cons, total_nil, total_insertSibling, same]
        omega

/-- A new label, whose own size grows by the change of its weight. -/
theorem sized_relabel (w stored : α → Int) (a a' : α) {l r : Forest α} {delta : Int}
    (grown : stored a' = stored a + delta) (weight : w a' = w a + delta)
    (sized : (cons a l r nil).Sized w stored) :
    (cons a' l r nil).Sized w stored ∧
      (cons a' l r nil).total w = (cons a l r nil).total w + delta := by
  obtain ⟨size, sl, sr, -⟩ := sized
  refine ⟨⟨?_, sl, sr, trivial⟩, ?_⟩
  · rw [grown, weight, size]
    omega
  · simp only [total_cons, total_nil, weight]
    omega

end Forest

open Forest

/-- A new root adds its weight. -/
theorem sized_insertIn {α : Type} {w stored : α → Int} (less : α → α → Bool) {n : α}
    {left right : Forest α} (sized : left.Sized w stored ∧ right.Sized w stored)
    (leaf : stored n = w n) (s : Side) :
    ((insertIn less s n left right).1.Sized w stored ∧
      (insertIn less s n left right).2.Sized w stored) ∧
      (insertIn less s n left right).1.total w + (insertIn less s n left right).2.total w =
        left.total w + right.total w + w n := by
  cases s with
  | L =>
      refine ⟨⟨sized.1.insertSibling leaf, sized.2⟩, ?_⟩
      simp only [insertIn, Side.pick_L, total_insertSibling]
      omega
  | R =>
      refine ⟨⟨sized.1, sized.2.insertSibling leaf⟩, ?_⟩
      simp only [insertIn, Side.pick_R, total_insertSibling]
      omega

/-- `Sized.updateAt` for the two root rows. -/
theorem sized_updateIn {α : Type} {w stored : α → Int} {p : α → Bool}
    {here : α → Forest α → Forest α → α × Forest α × Forest α} (above : α → α) {delta : Int}
    {left right left' right' : Forest α} (sized : left.Sized w stored ∧ right.Sized w stored)
    (path : ∀ a, stored (above a) = stored a + delta ∧ w (above a) = w a)
    (node : ∀ a l r, findIn p left right = some (a, l, r) → (cons a l r nil).Sized w stored →
      (cons (here a l r).1 (here a l r).2.1 (here a l r).2.2 nil).Sized w stored ∧
      (cons (here a l r).1 (here a l r).2.1 (here a l r).2.2 nil).total w =
        (cons a l r nil).total w + delta)
    (updated : updateIn p here above left right = some (left', right')) :
    (left'.Sized w stored ∧ right'.Sized w stored) ∧
      left'.total w + right'.total w = left.total w + right.total w + delta := by
  rcases updateIn_cases updated with ⟨left'', inl, same⟩ | ⟨noLeft, right'', inr, same⟩
  · obtain ⟨rfl, rfl⟩ := Prod.mk.inj same
    obtain ⟨s, change⟩ := sized.1.updateAt path
      (fun a l r found => node a l r (by simp [findIn, found])) inl
    exact ⟨⟨s, sized.2⟩, by omega⟩
  · obtain ⟨rfl, rfl⟩ := Prod.mk.inj same
    obtain ⟨s, change⟩ := sized.2.updateAt path
      (fun a l r found => node a l r (by simp [findIn, noLeft, found])) inr
    exact ⟨⟨sized.1, s⟩, by omega⟩

end SidedForest
