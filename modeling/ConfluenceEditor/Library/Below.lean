/-
What hangs below a node.

`Below nodes a x` says that a chain of parents leads from `x` up to `a`. In placed rows the nodes
below `a` are those of its two rows (`Rows.mem_of_below`, `Rows.below_of_mem`). A node that stands
before one of the roots of a row hangs below that root, or is an earlier root, or hangs below an
earlier root (`Forest.Placed.before_root`).
-/

import ConfluenceEditor.Library.Spine

namespace SidedForest

open Forest

section Below

variable {α κ : Type} (key : α → κ) (parent : α → Option κ)

/-- A chain of parents leads from the node up to `a`. -/
inductive Below (nodes : List α) (a : α) : α → Prop where
  | child {x : α} (member : x ∈ nodes) (under : parent x = some (key a)) : Below nodes a x
  | deeper {p x : α} (above : Below nodes a p) (member : x ∈ nodes)
      (under : parent x = some (key p)) : Below nodes a x

variable {key parent} {nodes : List α} {a b x : α}

theorem Below.mem (below : Below key parent nodes a x) : x ∈ nodes := by
  cases below with
  | child member _ => exact member
  | deeper _ member _ => exact member

theorem Below.trans (first : Below key parent nodes a b) (second : Below key parent nodes b x) :
    Below key parent nodes a x := by
  induction second with
  | child member under => exact .deeper first member under
  | deeper _ member under ih => exact .deeper ih member under

end Below

/-! ### The rows of a node -/

section Rows

variable {α κ : Type} [DecidableEq κ] {key : α → κ} {parent : α → Option κ} {side : α → Side}
  {R : α → α → Prop} {left right : Forest α} {nodes : List α} {a p x m : α} {l r : Forest α}

theorem Forest.Placed.below_of_root {F : Forest α} {s : Side} {b : α}
    (placed : F.Placed key parent side (some (key a)) s) (inside : ∀ n ∈ F.inorder, n ∈ nodes)
    (root : b ∈ F.roots) (found : x = b ∨ Below key parent nodes b x) :
    Below key parent nodes a x := by
  have child : Below key parent nodes a b :=
    .child (inside b (mem_of_mem_roots root)) (placed.of_mem_roots root).1
  rcases found with rfl | below
  · exact child
  · exact child.trans below

/-- Every node of a row is one of its roots or hangs below one. -/
theorem Forest.Placed.below_root {F : Forest α} {q : Option κ} {s : Side}
    (placed : F.Placed key parent side q s) (inside : ∀ n ∈ F.inorder, n ∈ nodes)
    (member : x ∈ F.inorder) : ∃ b ∈ F.roots, x = b ∨ Below key parent nodes b x := by
  induction F generalizing q s with
  | nil => cases member
  | cons b l r t ihl ihr iht =>
      obtain ⟨-, -, inl, inr, rest⟩ := placed
      have insideL : ∀ n ∈ l.inorder, n ∈ nodes := fun n h => inside n (by simp [h])
      have insideR : ∀ n ∈ r.inorder, n ∈ nodes := fun n h => inside n (by simp [h])
      have insideT : ∀ n ∈ t.inorder, n ∈ nodes := fun n h => inside n (by simp [h])
      rcases mem_inorder_cons.mp member with rfl | inL | inR | inT
      · exact ⟨x, by simp, Or.inl rfl⟩
      · obtain ⟨c, root, found⟩ := ihl inl insideL inL
        exact ⟨b, by simp, Or.inr (inl.below_of_root insideL root found)⟩
      · obtain ⟨c, root, found⟩ := ihr inr insideR inR
        exact ⟨b, by simp, Or.inr (inr.below_of_root insideR root found)⟩
      · obtain ⟨c, root, found⟩ := iht rest insideT inT
        exact ⟨c, by simp [root], found⟩

/-- The nodes of a row under `a` hang below `a`. -/
theorem Forest.Placed.below {F : Forest α} {s : Side}
    (placed : F.Placed key parent side (some (key a)) s) (inside : ∀ n ∈ F.inorder, n ∈ nodes)
    (member : x ∈ F.inorder) : Below key parent nodes a x := by
  obtain ⟨b, root, found⟩ := placed.below_root inside member
  exact placed.below_of_root inside root found

/-- What stands before a root of a row hangs below that root or belongs to an earlier one. -/
theorem Forest.Placed.before_root {F : Forest α} {q : Option κ} {s : Side}
    (placed : F.Placed key parent side q s) (inside : ∀ n ∈ F.inorder, n ∈ nodes)
    (nodup : F.inorder.Nodup) (root : m ∈ F.roots) (before : Before F.inorder x m) :
    Below key parent nodes m x ∨
      ∃ b ∈ F.roots, Before F.inorder b m ∧ (x = b ∨ Below key parent nodes b x) := by
  induction F generalizing q s with
  | nil => cases root
  | cons b l r t _ _ iht =>
      obtain ⟨-, -, inl, inr, rest⟩ := placed
      have insideL : ∀ n ∈ l.inorder, n ∈ nodes := fun n h => inside n (by simp [h])
      have insideR : ∀ n ∈ r.inorder, n ∈ nodes := fun n h => inside n (by simp [h])
      have insideT : ∀ n ∈ t.inorder, n ∈ nodes := fun n h => inside n (by simp [h])
      have behind : (b :: (r.inorder ++ t.inorder)).Sublist (cons b l r t).inorder :=
        List.sublist_append_right l.inorder _
      have tail : t.inorder.Sublist (cons b l r t).inorder :=
        ((List.sublist_append_right r.inorder _).trans (List.sublist_cons_self b _)).trans behind
      have later : ∀ {y : α}, y ∈ r.inorder ∨ y ∈ t.inorder → Before (cons b l r t).inorder b y :=
        fun there => Before.mono (before_cons_iff.mpr (Or.inl ⟨rfl, List.mem_append.mpr there⟩)) behind
      rcases List.mem_cons.mp (roots_cons b l r t ▸ root) with rfl | root
      · -- the first root: only its left row stands before it
        refine Or.inl ?_
        rcases mem_inorder_cons.mp before.mem.1 with rfl | inL | behind'
        · exact absurd before (before.asymm nodup)
        · exact inl.below insideL inL
        · exact absurd (later behind') (before.asymm nodup)
      · have first : Before (cons b l r t).inorder b m := later (Or.inr (mem_of_mem_roots root))
        rcases mem_inorder_cons.mp before.mem.1 with rfl | inL | inR | inT
        · exact Or.inr ⟨x, by simp, first, Or.inl rfl⟩
        · exact Or.inr ⟨b, by simp, first, Or.inr (inl.below insideL inL)⟩
        · exact Or.inr ⟨b, by simp, first, Or.inr (inr.below insideR inR)⟩
        · have here := before.restrict nodup tail inT (mem_of_mem_roots root)
          rcases iht rest insideT (nodup.sublist tail) root here with below | ⟨c, inRow, order, found⟩
          · exact Or.inl below
          · exact Or.inr ⟨c, by simp [inRow], order.mono tail, found⟩

theorem before_of_append {α : Type} {first second : List α} {x y : α} (early : x ∈ first)
    (late : y ∈ second) : Before (first ++ second) x y :=
  (List.singleton_sublist.mpr early).append (List.singleton_sublist.mpr late)

omit [DecidableEq κ] in
theorem Sub.placed {F : Forest α} {q : Option κ} {s : Side} (sub : Sub a l r F)
    (placed : F.Placed key parent side q s) : l.Placed key parent side (some (key a)) .L ∧
      r.Placed key parent side (some (key a)) .R := by
  induction F generalizing q s with
  | nil => cases sub
  | cons b l' r' t ihl ihr iht =>
      obtain ⟨-, -, inl, inr, rest⟩ := placed
      rcases sub with ⟨rfl, rfl, rfl⟩ | below | below | below
      · exact ⟨inl, inr⟩
      · exact ihl below inl
      · exact ihr below inr
      · exact iht below rest

omit [DecidableEq κ] in
theorem SubIn.placed (sub : SubIn a l r left right) (rows : Rows key parent side R left right) :
    l.Placed key parent side (some (key a)) .L ∧ r.Placed key parent side (some (key a)) .R :=
  sub.elim (Sub.placed · rows.placedLeft) (Sub.placed · rows.placedRight)

namespace Rows

theorem exists_subIn (member : a ∈ left.inorder ++ right.inorder) :
    ∃ l r, SubIn a l r left right := by
  rcases List.mem_append.mp member with inl | inr
  · obtain ⟨l, r, sub⟩ := exists_sub inl
    exact ⟨l, r, Or.inl sub⟩
  · obtain ⟨l, r, sub⟩ := exists_sub inr
    exact ⟨l, r, Or.inr sub⟩

/-- The nodes below `a` are in its two rows. -/
theorem mem_of_below (rows : Rows key parent side R left right) (sub : SubIn a l r left right)
    (below : Below key parent (left.inorder ++ right.inorder) a x) :
    x ∈ l.inorder ∨ x ∈ r.inorder := by
  have ofRoots : ∀ {s : Side} {b : α} {l r : Forest α}, b ∈ (s.pick l r).roots →
      b ∈ l.inorder ∨ b ∈ r.inorder := by
    intro s b l r root
    cases s with
    | L => exact Or.inl (mem_of_mem_roots root)
    | R => exact Or.inr (mem_of_mem_roots root)
  have inner : ∀ {F : Forest α} {p : α} {pl pr : Forest α}, Sub p pl pr F → ∀ b,
      b ∈ pl.inorder ∨ b ∈ pr.inorder → b ∈ F.inorder := by
    intro F p pl pr sub b there
    obtain ⟨before, after, split⟩ := sub.split
    rw [split]
    rcases there with inL | inR
    · simp [inL]
    · simp [inR]
  induction below with
  | @child x member under =>
      exact ofRoots ((rows.children_of_sub sub (side x) x).mp ⟨member, under, rfl⟩)
  | @deeper p x above member under ih =>
      rcases ih with inL | inR
      · obtain ⟨pl, pr, here⟩ := exists_sub inL
        have child := (rows.children_of_sub (sub.trans (Or.inl here)) (side x) x).mp
          ⟨member, under, rfl⟩
        exact Or.inl (inner here x (ofRoots child))
      · obtain ⟨pl, pr, here⟩ := exists_sub inR
        have child := (rows.children_of_sub (sub.trans (Or.inr here)) (side x) x).mp
          ⟨member, under, rfl⟩
        exact Or.inr (inner here x (ofRoots child))

/-- A node that stands between a node and one of its right children hangs below it. -/
theorem below_of_between (rows : Rows key parent side R left right)
    (member : m ∈ left.inorder ++ right.inorder) (under : parent m = some (key p))
    (onRight : side m = .R) (first : Before (left.inorder ++ right.inorder) p x)
    (second : Before (left.inorder ++ right.inorder) x m) :
    Below key parent (left.inorder ++ right.inorder) p x := by
  have nodup : (left.inorder ++ right.inorder).Nodup := rows.distinct.of_map
  obtain ⟨l, r, sub⟩ := exists_subIn first.mem.1
  obtain ⟨-, placed⟩ := sub.placed rows
  have root : m ∈ r.roots := (rows.children_of_sub sub .R m).mp ⟨member, under, onRight⟩
  have inRow : m ∈ r.inorder := mem_of_mem_roots root
  obtain ⟨before, after, split⟩ := sub.split
  have inside : ∀ n ∈ r.inorder, n ∈ left.inorder ++ right.inorder := fun n there => by
    rw [split]
    simp [there]
  refine placed.below inside ?_
  have there := first.mem.2
  rw [split] at there first second nodup
  -- everything else stands before the node or behind its right row
  rcases List.mem_append.mp there with early | late
  · rcases List.mem_append.mp early with before' | own
    · refine absurd first (Before.asymm ?_ nodup)
      rw [List.append_assoc]
      exact before_of_append before' (by simp)
    · rcases List.mem_append.mp own with inL | rest
      · have order : Before (l.inorder ++ p :: r.inorder) x p :=
          before_of_append inL List.mem_cons_self
        refine absurd first (Before.asymm (order.mono ?_) nodup)
        exact (List.sublist_append_right before _).trans (List.sublist_append_left _ after)
      · rcases List.mem_cons.mp rest with rfl | inR
        · exact absurd first (first.asymm nodup)
        · exact inR
  · refine absurd second (Before.asymm ?_ nodup)
    exact before_of_append (by simp [inRow]) late

/-- A node that stands before a child of a node and hangs below that node, on the child's side of it,
hangs below the child, or is an earlier sibling of it, or hangs below one. -/
theorem before_child (rows : Rows key parent side R left right)
    (member : m ∈ left.inorder ++ right.inorder) (above : p ∈ left.inorder ++ right.inorder)
    (under : parent m = some (key p))
    (below : Below key parent (left.inorder ++ right.inorder) p x)
    (second : Before (left.inorder ++ right.inorder) x m)
    (first : side m = .R → Before (left.inorder ++ right.inorder) p x) :
    Below key parent (left.inorder ++ right.inorder) m x ∨
      ∃ b, Before (left.inorder ++ right.inorder) b m ∧ parent b = parent m ∧ side b = side m ∧
        (x = b ∨ Below key parent (left.inorder ++ right.inorder) b x) := by
  have nodup : (left.inorder ++ right.inorder).Nodup := rows.distinct.of_map
  obtain ⟨l, r, sub⟩ := exists_subIn above
  obtain ⟨placedL, placedR⟩ := sub.placed rows
  obtain ⟨before, after, split⟩ := sub.split
  have part : (l.inorder ++ p :: r.inorder).Sublist (left.inorder ++ right.inorder) := by
    rw [split]
    exact (List.sublist_append_right before _).trans (List.sublist_append_left _ after)
  have partL : l.inorder.Sublist (left.inorder ++ right.inorder) :=
    (List.sublist_append_left ..).trans part
  have partR : r.inorder.Sublist (left.inorder ++ right.inorder) :=
    (List.sublist_cons_self p _).trans ((List.sublist_append_right ..).trans part)
  have root := (rows.children_of_sub sub (side m) m).mp ⟨member, under, rfl⟩
  have ofRow : ∀ {F : Forest α} {s : Side}, F.Placed key parent side (some (key p)) s →
      F.inorder.Sublist (left.inorder ++ right.inorder) → s = side m → m ∈ F.roots →
      x ∈ F.inorder → Below key parent (left.inorder ++ right.inorder) m x ∨
        ∃ b, Before (left.inorder ++ right.inorder) b m ∧ parent b = parent m ∧ side b = side m ∧
          (x = b ∨ Below key parent (left.inorder ++ right.inorder) b x) := by
    intro F s placed sublist same root there
    have here := second.restrict nodup sublist there (mem_of_mem_roots root)
    refine (placed.before_root (fun n h => sublist.subset h) (nodup.sublist sublist) root here).imp_right
      fun ⟨b, inRow, order, found⟩ => ⟨b, order.mono sublist, ?_, ?_, found⟩
    · exact (placed.of_mem_roots inRow).1.trans under.symm
    · exact (placed.of_mem_roots inRow).2.trans same
  cases onSide : side m with
  | L =>
      rw [onSide] at root
      rcases rows.mem_of_below sub below with inL | inR
      · have found := ofRow placedL partL onSide.symm root inL
        rwa [onSide] at found
      · refine absurd second (Before.asymm (Before.mono ?_ part) nodup)
        exact before_of_append (mem_of_mem_roots root) (List.mem_cons_of_mem p inR)
  | R =>
      rw [onSide] at root
      rcases rows.mem_of_below sub below with inL | inR
      · refine absurd (first onSide) (Before.asymm (Before.mono ?_ part) nodup)
        exact before_of_append inL List.mem_cons_self
      · have found := ofRow placedR partR onSide.symm root inR
        rwa [onSide] at found

end Rows

end Rows

end SidedForest
