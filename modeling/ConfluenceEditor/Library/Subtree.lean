/-
The subtrees of a forest.

`Sub a l r F` says that `a` is a node of `F` with the rows `l` and `r`. With distinct keys the search
for a key finds exactly that node (`Sub.find?_eq`), and in placed rows the labels that name it are
exactly its two rows (`Rows.children_of_sub`). The leftmost node of a row has no left children
(`sub_leftmost`), which is where a new node can be attached next to any other one.
-/

import ConfluenceEditor.Library.RootRows

namespace SidedForest

namespace Forest

variable {α β κ : Type}

/-- `a` stands in the forest with left row `l` and right row `r`. -/
def Sub (a : α) (l r : Forest α) : Forest α → Prop
  | nil => False
  | cons b l' r' t => (a = b ∧ l = l' ∧ r = r') ∨ Sub a l r l' ∨ Sub a l r r' ∨ Sub a l r t

variable {a : α} {l r F : Forest α}

theorem Sub.of_find? {p : α → Bool} (found : F.find? p = some (a, l, r)) : Sub a l r F := by
  induction F with
  | nil => simp [find?] at found
  | cons b l' r' t ihl ihr iht =>
      unfold find? at found
      split_ifs at found with hit
      · simp only [Option.some.injEq, Prod.mk.injEq] at found
        obtain ⟨rfl, rfl, rfl⟩ := found
        exact Or.inl ⟨rfl, rfl, rfl⟩
      · cases hl : l'.find? p with
        | some inner =>
            rw [hl] at found
            exact Or.inr (Or.inl (ihl (hl.trans found)))
        | none =>
            rw [hl] at found
            cases hr : r'.find? p with
            | some inner =>
                rw [hr] at found
                exact Or.inr (Or.inr (Or.inl (ihr (hr.trans found))))
            | none =>
                rw [hr] at found
                exact Or.inr (Or.inr (Or.inr (iht found)))

theorem Sub.mem (sub : Sub a l r F) : a ∈ F.inorder := by
  induction F with
  | nil => cases sub
  | cons b l' r' t ihl ihr iht =>
      rcases sub with ⟨rfl, -, -⟩ | inl | inr | inTail
      · simp
      · simp [ihl inl]
      · simp [ihr inr]
      · simp [iht inTail]

theorem Sub.split (sub : Sub a l r F) :
    ∃ before after, F.inorder = before ++ (l.inorder ++ a :: r.inorder) ++ after := by
  induction F with
  | nil => cases sub
  | cons b l' r' t ihl ihr iht =>
      rcases sub with ⟨rfl, rfl, rfl⟩ | inl | inr | inTail
      · exact ⟨[], t.inorder, by simp [inorder]⟩
      · obtain ⟨before, after, split⟩ := ihl inl
        exact ⟨before, after ++ b :: (r'.inorder ++ t.inorder), by simp [inorder, split]⟩
      · obtain ⟨before, after, split⟩ := ihr inr
        exact ⟨l'.inorder ++ b :: before, after ++ t.inorder, by simp [inorder, split]⟩
      · obtain ⟨before, after, split⟩ := iht inTail
        exact ⟨l'.inorder ++ b :: (r'.inorder ++ before), after, by simp [inorder, split]⟩

theorem Sub.trans {b : α} {l' r' : Forest α} (inner : Sub b l' r' l ∨ Sub b l' r' r)
    (sub : Sub a l r F) : Sub b l' r' F := by
  induction F with
  | nil => cases sub
  | cons c lc rc t ihl ihr iht =>
      rcases sub with ⟨rfl, rfl, rfl⟩ | inl | inr | inTail
      · exact inner.elim (fun h => Or.inr (Or.inl h)) fun h => Or.inr (Or.inr (Or.inl h))
      · exact Or.inr (Or.inl (ihl inl))
      · exact Or.inr (Or.inr (Or.inl (ihr inr)))
      · exact Or.inr (Or.inr (Or.inr (iht inTail)))

/-- The leftmost node of a nonempty row has no left children. -/
theorem sub_leftmost (c : α) (cl cr ct : Forest α) :
    ∃ rr, Sub (leftmost c cl) nil rr (cons c cl cr ct) := by
  induction cl generalizing c cr ct with
  | nil => exact ⟨cr, Or.inl ⟨rfl, rfl, rfl⟩⟩
  | cons d dl dr dt ihl _ _ =>
      obtain ⟨rr, sub⟩ := ihl d dr dt
      exact ⟨rr, Or.inr (Or.inl sub)⟩

/-- Among the nodes with a property one has no such node below it. -/
theorem exists_lowest {S : α → Prop} (some : ∃ x ∈ F.inorder, S x) :
    ∃ a l r, Sub a l r F ∧ S a ∧ ∀ y, y ∈ l.inorder ∨ y ∈ r.inorder → ¬ S y := by
  induction F with
  | nil =>
      obtain ⟨x, member, -⟩ := some
      cases member
  | cons b l r t ihl ihr iht =>
      by_cases left : ∃ x ∈ l.inorder, S x
      · obtain ⟨a, la, ra, sub, holds, below⟩ := ihl left
        exact ⟨a, la, ra, Or.inr (Or.inl sub), holds, below⟩
      by_cases right : ∃ x ∈ r.inorder, S x
      · obtain ⟨a, la, ra, sub, holds, below⟩ := ihr right
        exact ⟨a, la, ra, Or.inr (Or.inr (Or.inl sub)), holds, below⟩
      by_cases here : S b
      · refine ⟨b, l, r, Or.inl ⟨rfl, rfl, rfl⟩, here, fun y member holds => ?_⟩
        exact member.elim (fun inl => left ⟨y, inl, holds⟩) fun inr => right ⟨y, inr, holds⟩
      · have later : ∃ x ∈ t.inorder, S x := by
          obtain ⟨x, member, holds⟩ := some
          rcases mem_inorder_cons.mp member with rfl | inl | inr | later
          · exact absurd holds here
          · exact absurd ⟨x, inl, holds⟩ left
          · exact absurd ⟨x, inr, holds⟩ right
          · exact ⟨x, later, holds⟩
        obtain ⟨a, la, ra, sub, holds, below⟩ := iht later
        exact ⟨a, la, ra, Or.inr (Or.inr (Or.inr sub)), holds, below⟩

/-- The rows of a node are sorted where all rows are. -/
theorem Sub.ordered {R : α → α → Prop} (sub : Sub a l r F) (ordered : F.Ordered R) :
    l.Ordered R ∧ r.Ordered R := by
  induction F with
  | nil => cases sub
  | cons b l' r' t ihl ihr iht =>
      have ⟨_, ol, or, ot⟩ := ordered
      rcases sub with ⟨_, left, right⟩ | inl | inr | inTail
      · rw [left, right]
        exact ⟨ol, or⟩
      · exact ihl inl ol
      · exact ihr inr or
      · exact iht inTail ot

theorem Sub.map (f : α → β) (sub : Sub a l r F) : Sub (f a) (l.map f) (r.map f) (F.map f) := by
  induction F with
  | nil => cases sub
  | cons b l' r' t ihl ihr iht =>
      rcases sub with ⟨rfl, rfl, rfl⟩ | inl | inr | inTail
      · exact Or.inl ⟨rfl, rfl, rfl⟩
      · exact Or.inr (Or.inl (ihl inl))
      · exact Or.inr (Or.inr (Or.inl (ihr inr)))
      · exact Or.inr (Or.inr (Or.inr (iht inTail)))

variable [DecidableEq κ] {key : α → κ}

/-- With distinct keys, the search for the key of a node finds that node. -/
theorem Sub.find?_eq (distinct : F.Distinct key) (sub : Sub a l r F) :
    F.find? (key · = key a) = some (a, l, r) := by
  induction F with
  | nil => cases sub
  | cons b l' r' t ihl ihr iht =>
      obtain ⟨dl, dr, dt, bl, br, bt, lr, lt, rt⟩ := distinct.parts
      have absent : ∀ {G : Forest α}, (∀ x ∈ G.inorder, key x ≠ key a) →
          G.find? (key · = key a) = none := fun none =>
        find?_eq_none_iff.mpr fun x member => by simpa using none x member
      rcases sub with ⟨rfl, rfl, rfl⟩ | inl | inr | inTail
      · simp [find?]
      · simp [find?, (bl a inl.mem).symm, ihl dl inl]
      · simp [find?, (br a inr.mem).symm, ihr dr inr, absent fun x member => lr x member a inr.mem]
      · simp [find?, (bt a inTail.mem).symm, iht dt inTail,
          absent fun x member => lt x member a inTail.mem,
          absent fun x member => rt x member a inTail.mem]

theorem Sub.childrenAt_eq (distinct : F.Distinct key) (sub : Sub a l r F) (s : Side) :
    F.childrenAt key (key a) s = (s.pick l r).roots := by
  induction F with
  | nil => cases sub
  | cons b l' r' t ihl ihr iht =>
      obtain ⟨dl, dr, dt, bl, br, bt, lr, lt, rt⟩ := distinct.parts
      rw [childrenAt_cons]
      rcases sub with ⟨rfl, rfl, rfl⟩ | inl | inr | inTail
      · rw [if_pos rfl, childrenAt_eq_nil bl, childrenAt_eq_nil br, childrenAt_eq_nil bt]
        cases s <;> simp
      · rw [if_neg (bl a inl.mem).symm, ihl dl inl,
          childrenAt_eq_nil fun x member => (lr a inl.mem x member).symm,
          childrenAt_eq_nil fun x member => (lt a inl.mem x member).symm]
        simp
      · rw [if_neg (br a inr.mem).symm, ihr dr inr,
          childrenAt_eq_nil fun x member => lr x member a inr.mem,
          childrenAt_eq_nil fun x member => (rt a inr.mem x member).symm]
        simp
      · rw [if_neg (bt a inTail.mem).symm, iht dt inTail,
          childrenAt_eq_nil fun x member => lt x member a inTail.mem,
          childrenAt_eq_nil fun x member => rt x member a inTail.mem]
        simp

end Forest

open Forest

/-- `a` stands in one of the two rows with the given children. -/
def SubIn {α : Type} (a : α) (l r left right : Forest α) : Prop := Sub a l r left ∨ Sub a l r right

section SubIn

variable {α β : Type} {a : α} {l r left right : Forest α}

theorem SubIn.of_findIn {p : α → Bool} (found : findIn p left right = some (a, l, r)) :
    SubIn a l r left right := by
  rcases Option.or_eq_some_iff.mp found with inl | ⟨-, inr⟩
  · exact Or.inl (Sub.of_find? inl)
  · exact Or.inr (Sub.of_find? inr)

theorem SubIn.mem (sub : SubIn a l r left right) : a ∈ left.inorder ++ right.inorder :=
  List.mem_append.mpr (sub.imp Sub.mem Sub.mem)

theorem SubIn.split (sub : SubIn a l r left right) : ∃ before after,
    left.inorder ++ right.inorder = before ++ (l.inorder ++ a :: r.inorder) ++ after := by
  rcases sub with inl | inr
  · obtain ⟨before, after, split⟩ := inl.split
    exact ⟨before, after ++ right.inorder, by simp [split]⟩
  · obtain ⟨before, after, split⟩ := inr.split
    exact ⟨left.inorder ++ before, after, by simp [split]⟩

theorem SubIn.trans {b : α} {l' r' : Forest α} (inner : Sub b l' r' l ∨ Sub b l' r' r)
    (sub : SubIn a l r left right) : SubIn b l' r' left right :=
  sub.imp (Sub.trans inner) (Sub.trans inner)

theorem SubIn.map (f : α → β) (sub : SubIn a l r left right) :
    SubIn (f a) (l.map f) (r.map f) (left.map f) (right.map f) :=
  sub.imp (Sub.map f) (Sub.map f)

end SubIn

namespace Rows

variable {α κ : Type} [DecidableEq κ] {key : α → κ} {parent : α → Option κ} {side : α → Side}
  {R : α → α → Prop} {left right : Forest α} {a : α} {l r : Forest α}

theorem findIn_eq (rows : Rows key parent side R left right) (sub : SubIn a l r left right) :
    findIn (key · = key a) left right = some (a, l, r) := by
  rcases sub with inl | inr
  · rw [findIn, inl.find?_eq rows.distinctLeft, Option.some_or]
  · have absent : left.find? (key · = key a) = none :=
      find?_eq_none_iff.mpr fun x member => by simpa using rows.disjoint x member a inr.mem
    rw [findIn, absent, inr.find?_eq rows.distinctRight, Option.none_or]

/-- The labels that name a node are the roots of its two rows. -/
theorem children_of_sub (rows : Rows key parent side R left right)
    (sub : SubIn a l r left right) (s : Side) (x : α) :
    (x ∈ left.inorder ++ right.inorder ∧ parent x = some (key a) ∧ side x = s) ↔
      x ∈ (s.pick l r).roots := by
  rw [rows.mem_childrenAt]
  rcases sub with inl | inr
  · rw [inl.childrenAt_eq rows.distinctLeft,
      childrenAt_eq_nil (F := right) fun y member => (rows.disjoint a inl.mem y member).symm,
      List.append_nil]
  · rw [inr.childrenAt_eq rows.distinctRight,
      childrenAt_eq_nil (F := left) fun y member => rows.disjoint y member a inr.mem,
      List.nil_append]

end Rows

end SidedForest
