/-
The order of a traversal.

`Before l x y` says that `x` stands before `y` in the list. Siblings stand in the traversal in the
order of their row (`Rows.before`), so any relation that the traversal respects on siblings sorts the
rows (`Rows.reorder`), and two pairs of rows over the same labels with the same order of siblings are
the same (`Rows.eq_of_before`).
-/

import ConfluenceEditor.Library.Subtree

namespace SidedForest

/-! ### The order of two members of a list -/

section Before

variable {α : Type} {l part : List α} {x y : α}

/-- `x` stands before `y` in the list. -/
def Before (l : List α) (x y : α) : Prop := [x, y].Sublist l

instance [DecidableEq α] : Decidable (Before l x y) :=
  inferInstanceAs (Decidable ([x, y].Sublist l))

theorem Before.mem (before : Before l x y) : x ∈ l ∧ y ∈ l :=
  ⟨before.subset (by simp), before.subset (by simp)⟩

theorem Before.mono (before : Before part x y) (sub : part.Sublist l) : Before l x y :=
  before.trans sub

theorem before_cons_iff {z : α} : Before (z :: l) x y ↔ (x = z ∧ y ∈ l) ∨ Before l x y := by
  constructor
  · intro before
    rcases List.sublist_cons_iff.mp before with later | ⟨r, same, rest⟩
    · exact Or.inr later
    · obtain ⟨rfl, rfl⟩ := List.cons.inj same
      exact Or.inl ⟨rfl, List.singleton_sublist.mp rest⟩
  · rintro (⟨rfl, member⟩ | later)
    · exact (List.singleton_sublist.mpr member).cons_cons x
    · exact later.cons z

theorem Before.asymm (before : Before l x y) (nodup : l.Nodup) : ¬ Before l y x := by
  induction l with
  | nil => exact fun _ => nomatch before.mem.1
  | cons z l ih =>
      obtain ⟨fresh, rest⟩ := List.nodup_cons.mp nodup
      intro after
      rcases before_cons_iff.mp before with ⟨rfl, member⟩ | later
      · rcases before_cons_iff.mp after with ⟨rfl, again⟩ | later'
        · exact fresh again
        · exact fresh later'.mem.2
      · rcases before_cons_iff.mp after with ⟨rfl, -⟩ | later'
        · exact fresh later.mem.2
        · exact ih later rest later'

theorem Before.before {z : α} (first : Before l x y) (second : Before l y z) (nodup : l.Nodup) :
    Before l x z := by
  induction l with
  | nil => cases first.mem.1
  | cons w l ih =>
      obtain ⟨fresh, rest⟩ := List.nodup_cons.mp nodup
      rcases before_cons_iff.mp first with ⟨rfl, member⟩ | later
      · rcases before_cons_iff.mp second with ⟨rfl, -⟩ | later'
        · exact absurd member fresh
        · exact before_cons_iff.mpr (Or.inl ⟨rfl, later'.mem.2⟩)
      · rcases before_cons_iff.mp second with ⟨rfl, -⟩ | later'
        · exact absurd later.mem.2 fresh
        · exact before_cons_iff.mpr (Or.inr (ih later later' rest))

theorem before_total (first : x ∈ l) (second : y ∈ l) (other : x ≠ y) :
    Before l x y ∨ Before l y x := by
  induction l with
  | nil => cases first
  | cons z l ih =>
      rw [before_cons_iff, before_cons_iff]
      rcases List.mem_cons.mp first with rfl | inside
      · rcases List.mem_cons.mp second with rfl | inside'
        · exact absurd rfl other
        · exact Or.inl (Or.inl ⟨rfl, inside'⟩)
      · rcases List.mem_cons.mp second with rfl | inside'
        · exact Or.inr (Or.inl ⟨rfl, inside⟩)
        · exact (ih inside inside').imp Or.inr Or.inr

/-- The order in a list without repetitions is the order in any part of it. -/
theorem Before.restrict (before : Before l x y) (nodup : l.Nodup) (sub : part.Sublist l)
    (first : x ∈ part) (second : y ∈ part) : Before part x y := by
  have other : x ≠ y := fun same => List.nodup_iff_sublist.mp nodup y (same ▸ before)
  exact (before_total first second other).resolve_right fun swapped =>
    before.asymm nodup (swapped.mono sub)

/-- What is new in a grown list stands before what was there. -/
theorem before_of_suffix (grown : part <:+ l) (old : y ∈ part) (member : x ∈ l) (new : x ∉ part) :
    Before l x y := by
  obtain ⟨newer, rfl⟩ := grown
  have late := (List.mem_append.mp member).resolve_right new
  exact (List.singleton_sublist.mpr late).append (List.singleton_sublist.mpr old)

theorem Before.map {β : Type} (f : α → β) (before : Before l x y) : Before (l.map f) (f x) (f y) :=
  List.Sublist.map f before

theorem Before.of_map {β : Type} {f : α → β} {u v : β} (before : Before (l.map f) u v) :
    ∃ x y, Before l x y ∧ f x = u ∧ f y = v := by
  obtain ⟨pair, sub, whole⟩ := List.sublist_map_iff.mp before
  obtain ⟨x, rest, rfl, named, others⟩ := List.map_eq_cons_iff.mp whole.symm
  obtain ⟨y, sub', rfl, named', nothing⟩ := List.map_eq_cons_iff.mp others
  obtain rfl := List.map_eq_nil_iff.mp nothing
  exact ⟨x, y, sub, named, named'⟩

end Before

/-! ### Rows -/

namespace Forest

variable {α : Type} {x : α} {F : Forest α}

theorem exists_sub (member : x ∈ F.inorder) : ∃ l r, Sub x l r F := by
  induction F with
  | nil => cases member
  | cons a l r t ihl ihr iht =>
      rcases mem_inorder_cons.mp member with rfl | inl | inr | inTail
      · exact ⟨l, r, Or.inl ⟨rfl, rfl, rfl⟩⟩
      · obtain ⟨l', r', sub⟩ := ihl inl
        exact ⟨l', r', Or.inr (Or.inl sub)⟩
      · obtain ⟨l', r', sub⟩ := ihr inr
        exact ⟨l', r', Or.inr (Or.inr (Or.inl sub))⟩
      · obtain ⟨l', r', sub⟩ := iht inTail
        exact ⟨l', r', Or.inr (Or.inr (Or.inr sub))⟩

/-- Every node is a root or stands in a row of another one. -/
theorem root_or_child (member : x ∈ F.inorder) :
    x ∈ F.roots ∨ ∃ p l r, Sub p l r F ∧ (x ∈ l.roots ∨ x ∈ r.roots) := by
  induction F with
  | nil => cases member
  | cons a l r t ihl ihr iht =>
      rw [roots_cons]
      rcases mem_inorder_cons.mp member with rfl | inl | inr | inTail
      · exact Or.inl List.mem_cons_self
      · rcases ihl inl with root | ⟨p, l', r', sub, child⟩
        · exact Or.inr ⟨a, l, r, Or.inl ⟨rfl, rfl, rfl⟩, Or.inl root⟩
        · exact Or.inr ⟨p, l', r', Or.inr (Or.inl sub), child⟩
      · rcases ihr inr with root | ⟨p, l', r', sub, child⟩
        · exact Or.inr ⟨a, l, r, Or.inl ⟨rfl, rfl, rfl⟩, Or.inr root⟩
        · exact Or.inr ⟨p, l', r', Or.inr (Or.inr (Or.inl sub)), child⟩
      · rcases iht inTail with root | ⟨p, l', r', sub, child⟩
        · exact Or.inl (List.mem_cons_of_mem _ root)
        · exact Or.inr ⟨p, l', r', Or.inr (Or.inr (Or.inr sub)), child⟩

theorem roots_sublist (F : Forest α) : F.roots.Sublist F.inorder := by
  induction F with
  | nil => exact List.Sublist.refl _
  | cons a l r t _ _ iht =>
      rw [roots_cons, inorder]
      refine List.Sublist.trans ?_ (List.sublist_append_right l.inorder _)
      exact (iht.trans (List.sublist_append_right r.inorder _)).cons_cons a

/-- Siblings are sorted by whatever the traversal respects. -/
theorem Placed.reorder {κ : Type} [DecidableEq κ] {key : α → κ} {parent : α → Option κ}
    {side : α → Side} {p : Option κ} {s : Side} {R : α → α → Prop} {nodes : List α}
    (placed : F.Placed key parent side p s) (part : F.inorder.Sublist nodes)
    (respected : ∀ x y, Before nodes x y → parent x = parent y → side x = side y → R x y) :
    F.Ordered R := by
  induction F generalizing p s with
  | nil => trivial
  | cons a l r t ihl ihr iht =>
      obtain ⟨under, onSide, inl, inr, rest⟩ := placed
      rw [inorder] at part
      have tail : (a :: (r.inorder ++ t.inorder)).Sublist nodes :=
        (List.sublist_append_right l.inorder _).trans part
      refine ⟨fun b root => ?_, ihl inl ((List.sublist_append_left ..).trans part), ?_, ?_⟩
      · obtain ⟨under', onSide'⟩ := rest.of_mem_roots root
        refine respected a b (Before.mono ?_ tail) (under.trans under'.symm) (onSide.trans onSide'.symm)
        exact before_cons_iff.mpr (Or.inl ⟨rfl, List.mem_append_right _ (mem_of_mem_roots root)⟩)
      · exact ihr inr ((List.sublist_append_left ..).trans ((List.sublist_cons_self a _).trans tail))
      · exact iht rest ((List.sublist_append_right ..).trans
          ((List.sublist_cons_self a _).trans tail))

end Forest

open Forest

set_option linter.unusedSectionVars false

namespace Rows

variable {α κ : Type} [DecidableEq κ] {key : α → κ} {parent : α → Option κ} {side : α → Side}
  {R R' : α → α → Prop} {left right left' right' : Forest α} {x y : α}

/-- The row of a node. -/
theorem exists_row (rows : Rows key parent side R left right)
    (member : x ∈ left.inorder ++ right.inorder) :
    ∃ G : Forest α, G.inorder.Sublist (left.inorder ++ right.inorder) ∧ G.Ordered R ∧
      ∀ y, (y ∈ left.inorder ++ right.inorder ∧ parent y = parent x ∧ side y = side x) ↔
        y ∈ G.roots := by
  have root : ∀ s : Side, x ∈ (s.pick left right).roots → ∃ G : Forest α,
      G.inorder.Sublist (left.inorder ++ right.inorder) ∧ G.Ordered R ∧
        ∀ y, (y ∈ left.inorder ++ right.inorder ∧ parent y = parent x ∧ side y = side x) ↔
          y ∈ G.roots := by
    intro s inside
    obtain ⟨-, orphan, onSide⟩ := (rows.mem_roots s x).mpr inside
    refine ⟨s.pick left right, ?_, ?_, fun y => ?_⟩
    · cases s with
      | L => exact List.sublist_append_left ..
      | R => exact List.sublist_append_right ..
    · cases s with
      | L => exact rows.orderedLeft
      | R => exact rows.orderedRight
    · rw [orphan, onSide]
      exact rows.mem_roots s y
  have child : ∀ {p : α} {l r : Forest α}, SubIn p l r left right → l.Ordered R ∧ r.Ordered R →
      x ∈ l.roots ∨ x ∈ r.roots → ∃ G : Forest α,
      G.inorder.Sublist (left.inorder ++ right.inorder) ∧ G.Ordered R ∧
        ∀ y, (y ∈ left.inorder ++ right.inorder ∧ parent y = parent x ∧ side y = side x) ↔
          y ∈ G.roots := by
    intro p l r sub ordered inside
    obtain ⟨before, after, split⟩ := sub.split
    have part : (l.inorder ++ p :: r.inorder).Sublist (left.inorder ++ right.inorder) := by
      rw [split]
      exact (List.sublist_append_right before _).trans (List.sublist_append_left _ after)
    rcases inside with inl | inr
    · obtain ⟨-, under, onSide⟩ := (rows.children_of_sub sub .L x).mpr inl
      refine ⟨l, (List.sublist_append_left ..).trans part, ordered.1, fun y => ?_⟩
      rw [under, onSide]
      exact rows.children_of_sub sub .L y
    · obtain ⟨-, under, onSide⟩ := (rows.children_of_sub sub .R x).mpr inr
      refine ⟨r, (List.sublist_cons_self p _).trans ((List.sublist_append_right ..).trans part),
        ordered.2, fun y => ?_⟩
      rw [under, onSide]
      exact rows.children_of_sub sub .R y
  rcases List.mem_append.mp member with inl | inr
  · rcases root_or_child inl with inside | ⟨p, l, r, sub, inside⟩
    · exact root .L inside
    · exact child (Or.inl sub) (sub.ordered rows.orderedLeft) inside
  · rcases root_or_child inr with inside | ⟨p, l, r, sub, inside⟩
    · exact root .R inside
    · exact child (Or.inr sub) (sub.ordered rows.orderedRight) inside

/-- Siblings stand in the traversal in the order of their row. -/
theorem before (rows : Rows key parent side R left right)
    (before : Before (left.inorder ++ right.inorder) x y) (same : parent x = parent y)
    (sameSide : side x = side y) : R x y := by
  have nodup : (left.inorder ++ right.inorder).Nodup := rows.distinct.of_map
  obtain ⟨G, part, ordered, row⟩ := rows.exists_row before.mem.1
  have first := (row x).mp ⟨before.mem.1, rfl, rfl⟩
  have second := (row y).mp ⟨before.mem.2, same.symm, sameSide.symm⟩
  have here := before.restrict nodup (G.roots_sublist.trans part) first second
  exact List.pairwise_iff_forall_sublist.mp ordered.roots_pairwise here

theorem reorder (rows : Rows key parent side R left right)
    (respected : ∀ x y, Before (left.inorder ++ right.inorder) x y → parent x = parent y →
      side x = side y → R' x y) : Rows key parent side R' left right where
  placedLeft := rows.placedLeft
  placedRight := rows.placedRight
  orderedLeft := rows.placedLeft.reorder (List.sublist_append_left ..) respected
  orderedRight := rows.placedRight.reorder (List.sublist_append_right ..) respected
  distinct := rows.distinct

/-- The labels and the order of siblings determine the rows. -/
theorem eq_of_before (rows : Rows key parent side R left right)
    (rows' : Rows key parent side R' left' right')
    (same : ∀ x, x ∈ left.inorder ++ right.inorder ↔ x ∈ left'.inorder ++ right'.inorder)
    (order : ∀ x y, Before (left'.inorder ++ right'.inorder) x y → parent x = parent y →
      side x = side y → Before (left.inorder ++ right.inorder) x y) :
    left = left' ∧ right = right' := by
  have nodup : (left.inorder ++ right.inorder).Nodup := rows.distinct.of_map
  refine (rows.reorder fun x y before _ _ => before).eq_of_mem_iff (rows'.reorder order)
    (fun a _ b _ _ _ first second => absurd second (first.asymm nodup)) same

end Rows

end SidedForest
