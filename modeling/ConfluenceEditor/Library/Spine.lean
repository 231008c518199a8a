/-
The nodes that right links reach from the root.

The traversal of a forest is the traversal of its spine: each spine node comes after its left row
(`inorder_eq_spine`). A node hangs in the left row of a spine node unless it is one itself, and so do
its siblings (`Rows.sibling_mem`). No child stands on both sides of its parent, so two siblings on
one side do not have their parent between them (`Rows.not_between`).
-/

import ConfluenceEditor.Library.Before

namespace SidedForest

namespace Forest

variable {α κ : Type}

/-- The nodes reached by right links, with their left rows, in the order of the traversal. -/
def spine : Forest α → List (α × Forest α)
  | nil => []
  | cons a l r t => (a, l) :: (spine r ++ spine t)

variable {x : α} {F : Forest α}

theorem inorder_eq_spine (F : Forest α) :
    F.inorder = F.spine.flatMap fun node => node.2.inorder ++ [node.1] := by
  induction F with
  | nil => rfl
  | cons a l r t _ ihr iht =>
      rw [spine, List.flatMap_cons, List.flatMap_append, ← ihr, ← iht, inorder]
      simp

theorem spine_sublist (F : Forest α) : (F.spine.map Prod.fst).Sublist F.inorder := by
  induction F with
  | nil => exact List.Sublist.refl _
  | cons a l r t _ ihr iht =>
      rw [spine, List.map_cons, List.map_append, inorder]
      exact ((ihr.append iht).cons_cons a).trans (List.sublist_append_right l.inorder _)

theorem spine_of_mem_roots (root : x ∈ F.roots) : ∃ l, (x, l) ∈ F.spine := by
  induction F with
  | nil => cases root
  | cons a l r t _ _ iht =>
      rw [roots_cons] at root
      rcases List.mem_cons.mp root with rfl | later
      · exact ⟨l, List.mem_cons_self⟩
      · obtain ⟨l', member⟩ := iht later
        exact ⟨l', List.mem_cons_of_mem _ (List.mem_append_right _ member)⟩

/-- A spine node stands in the forest, and its right row is on the spine. -/
theorem sub_of_mem_spine {l : Forest α} (member : (x, l) ∈ F.spine) :
    ∃ r, Sub x l r F ∧ ∀ node ∈ r.spine, node ∈ F.spine := by
  induction F with
  | nil => cases member
  | cons a l' r t _ ihr iht =>
      rcases List.mem_cons.mp member with here | later
      · obtain ⟨rfl, rfl⟩ := Prod.mk.inj here
        exact ⟨r, Or.inl ⟨rfl, rfl, rfl⟩, fun node inside =>
          List.mem_cons_of_mem _ (List.mem_append_left _ inside)⟩
      · rcases List.mem_append.mp later with inr | inTail
        · obtain ⟨r', sub, rest⟩ := ihr inr
          exact ⟨r', Or.inr (Or.inr (Or.inl sub)), fun node inside =>
            List.mem_cons_of_mem _ (List.mem_append_left _ (rest node inside))⟩
        · obtain ⟨r', sub, rest⟩ := iht inTail
          exact ⟨r', Or.inr (Or.inr (Or.inr sub)), fun node inside =>
            List.mem_cons_of_mem _ (List.mem_append_right _ (rest node inside))⟩

/-- The parent of a node of a placed row is the row's, or stands in the row. -/
theorem Placed.parent_cases [DecidableEq κ] {key : α → κ} {parent : α → Option κ}
    {side : α → Side} {p : Option κ} {s : Side} (placed : F.Placed key parent side p s)
    (member : x ∈ F.inorder) : parent x = p ∨ ∃ y ∈ F.inorder, parent x = some (key y) := by
  induction F generalizing p s with
  | nil => cases member
  | cons a l r t ihl ihr iht =>
      obtain ⟨under, -, inl, inr, rest⟩ := placed
      have inner : ∀ {G : Forest α}, (∀ y ∈ G.inorder, y ∈ (cons a l r t).inorder) →
          (parent x = some (key a) ∨ ∃ y ∈ G.inorder, parent x = some (key y)) →
          ∃ y ∈ (cons a l r t).inorder, parent x = some (key y) := by
        rintro G inside (here | ⟨y, below, named⟩)
        · exact ⟨a, by simp, here⟩
        · exact ⟨y, inside y below, named⟩
      rcases mem_inorder_cons.mp member with rfl | left | right | tail
      · exact Or.inl under
      · exact Or.inr (inner (fun y below => by simp [below]) (ihl inl left))
      · exact Or.inr (inner (fun y below => by simp [below]) (ihr inr right))
      · rcases iht rest tail with here | ⟨y, below, named⟩
        · exact Or.inl here
        · exact Or.inr ⟨y, by simp [below], named⟩

end Forest

open Forest

section Rightward

variable {α κ : Type} (key : α → κ) (parent : α → Option κ) (side : α → Side)

/-- The node is a root, or a right child of such a node. -/
inductive Rightward (nodes : List α) : α → Prop
  | root {n : α} (orphan : parent n = none) : Rightward nodes n
  | right {n p : α} (member : p ∈ nodes) (under : parent n = some (key p)) (onRight : side n = .R)
      (above : Rightward nodes p) : Rightward nodes n

end Rightward

section Spine

variable {α κ : Type} [DecidableEq κ] {key : α → κ} {parent : α → Option κ} {side : α → Side}
  {R : α → α → Prop} {left right : Forest α} {x y p a : α} {l r : Forest α}

omit [DecidableEq κ] in
theorem Forest.Placed.rightward {nodes : List α} {k : Option κ} {s : Side} {F : Forest α}
    (placed : F.Placed key parent side k s) (inside : ∀ n ∈ F.inorder, n ∈ nodes)
    (reached : k = none ∨ s = .R ∧ ∃ q ∈ nodes, k = some (key q) ∧
      Rightward key parent side nodes q) :
    ∀ node ∈ F.spine, Rightward key parent side nodes node.1 := by
  induction F generalizing k s with
  | nil => nofun
  | cons b l r t _ ihr iht =>
      obtain ⟨under, onSide, -, inr, rest⟩ := placed
      have here : Rightward key parent side nodes b := by
        rcases reached with orphan | ⟨rightSide, q, member, named, above⟩
        · exact .root (under.trans orphan)
        · exact .right member (under.trans named) (onSide.trans rightSide) above
      intro node member
      rcases List.mem_cons.mp member with rfl | later
      · exact here
      · rcases List.mem_append.mp later with below | tail
        · refine ihr inr (fun n h => inside n (by simp [h])) (Or.inr ⟨rfl, b, ?_, rfl, here⟩) node below
          exact inside b (by simp)
        · exact iht rest (fun n h => inside n (by simp [h])) reached node tail

namespace Rows

/-- The spine of both rows. -/
theorem rightward_iff (rows : Rows key parent side R left right)
    (member : x ∈ left.inorder ++ right.inorder) :
    Rightward key parent side (left.inorder ++ right.inorder) x ↔
      ∃ l, (x, l) ∈ left.spine ++ right.spine := by
  constructor
  · intro reached
    induction reached with
    | @root n orphan =>
        have root := (rows.mem_roots (side n) n).mp ⟨member, orphan, rfl⟩
        cases onSide : side n with
        | L =>
            rw [onSide] at root
            obtain ⟨l, inside⟩ := spine_of_mem_roots root
            exact ⟨l, List.mem_append_left _ inside⟩
        | R =>
            rw [onSide] at root
            obtain ⟨l, inside⟩ := spine_of_mem_roots root
            exact ⟨l, List.mem_append_right _ inside⟩
    | @right n q there under onRight above ih =>
        obtain ⟨l, inside⟩ := ih there
        have children := fun {r : Forest α} (sub : SubIn q l r left right) =>
          (rows.children_of_sub sub .R n).mp ⟨member, under, onRight⟩
        rcases List.mem_append.mp inside with inl | inr
        · obtain ⟨r, sub, below⟩ := sub_of_mem_spine inl
          obtain ⟨l', child⟩ := spine_of_mem_roots (children (Or.inl sub))
          exact ⟨l', List.mem_append_left _ (below _ child)⟩
        · obtain ⟨r, sub, below⟩ := sub_of_mem_spine inr
          obtain ⟨l', child⟩ := spine_of_mem_roots (children (Or.inr sub))
          exact ⟨l', List.mem_append_right _ (below _ child)⟩
  · rintro ⟨l, inside⟩
    rcases List.mem_append.mp inside with inl | inr
    · exact rows.placedLeft.rightward (fun n h => List.mem_append_left _ h) (Or.inl rfl) _ inl
    · exact rows.placedRight.rightward (fun n h => List.mem_append_right _ h) (Or.inl rfl) _ inr

/-- A left child stands before its parent, a right child after it. -/
theorem child_place (rows : Rows key parent side R left right)
    (member : x ∈ left.inorder ++ right.inorder) (above : p ∈ left.inorder ++ right.inorder)
    (under : parent x = some (key p)) :
    (side x).pick (Before (left.inorder ++ right.inorder) x p)
      (Before (left.inorder ++ right.inorder) p x) := by
  obtain ⟨l, r, sub⟩ : ∃ l r, SubIn p l r left right := by
    rcases List.mem_append.mp above with inl | inr
    · obtain ⟨l, r, sub⟩ := exists_sub inl
      exact ⟨l, r, Or.inl sub⟩
    · obtain ⟨l, r, sub⟩ := exists_sub inr
      exact ⟨l, r, Or.inr sub⟩
  have child := (rows.children_of_sub sub (side x) x).mp ⟨member, under, rfl⟩
  obtain ⟨before, after, split⟩ := sub.split
  have part : (l.inorder ++ p :: r.inorder).Sublist (left.inorder ++ right.inorder) := by
    rw [split]
    exact (List.sublist_append_right before _).trans (List.sublist_append_left _ after)
  cases onSide : side x with
  | L =>
      rw [onSide] at child
      refine Before.mono ?_ part
      exact (List.singleton_sublist.mpr (mem_of_mem_roots child)).append
        ((List.nil_sublist _).cons_cons p)
  | R =>
      rw [onSide] at child
      refine Before.mono ?_ ((List.sublist_append_right l.inorder _).trans part)
      exact (List.singleton_sublist.mpr (mem_of_mem_roots child)).cons_cons p

/-- Siblings on one side do not have their parent between them. -/
theorem not_between (rows : Rows key parent side R left right)
    (between : [x, p, y].Sublist (left.inorder ++ right.inorder)) (same : parent x = parent y)
    (sameSide : side x = side y) : parent x ≠ some (key p) := by
  intro under
  have nodup : (left.inorder ++ right.inorder).Nodup := rows.distinct.of_map
  have first : x ∈ left.inorder ++ right.inorder := between.subset (by simp)
  have second : y ∈ left.inorder ++ right.inorder := between.subset (by simp)
  have above : p ∈ left.inorder ++ right.inorder := between.subset (by simp)
  have atX := rows.child_place first above under
  have atY := rows.child_place second above (same.symm.trans under)
  rw [← sameSide] at atY
  cases onSide : side x with
  | L =>
      rw [onSide] at atY
      exact Before.asymm atY nodup ((List.sublist_cons_self x [p, y]).trans between)
  | R =>
      rw [onSide] at atX
      refine Before.asymm atX nodup (List.Sublist.trans ?_ between)
      exact ((List.nil_sublist [y]).cons_cons p).cons_cons x

/-- The siblings of a node in the left row of another one are in this row, too. -/
theorem sibling_mem (rows : Rows key parent side R left right) (sub : SubIn a l r left right)
    (member : x ∈ l.inorder) (there : y ∈ left.inorder ++ right.inorder)
    (same : parent y = parent x) (sameSide : side y = side x) : y ∈ l.inorder := by
  rcases root_or_child member with root | ⟨q, ql, qr, below, child⟩
  · have named := (rows.children_of_sub sub .L x).mpr root
    exact mem_of_mem_roots ((rows.children_of_sub sub .L y).mp
      ⟨there, same.trans named.2.1, sameSide.trans named.2.2⟩)
  · have inner : SubIn q ql qr left right := sub.trans (Or.inl below)
    obtain ⟨before, after, split⟩ := below.split
    rw [split]
    rcases child with inl | inr
    · have named := (rows.children_of_sub inner .L x).mpr inl
      have sibling := mem_of_mem_roots ((rows.children_of_sub inner .L y).mp
        ⟨there, same.trans named.2.1, sameSide.trans named.2.2⟩)
      simp only [Side.pick] at sibling
      simp [sibling]
    · have named := (rows.children_of_sub inner .R x).mpr inr
      have sibling := mem_of_mem_roots ((rows.children_of_sub inner .R y).mp
        ⟨there, same.trans named.2.1, sameSide.trans named.2.2⟩)
      simp only [Side.pick] at sibling
      simp [sibling]

end Rows

end Spine

end SidedForest
