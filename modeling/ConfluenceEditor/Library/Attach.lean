/-
Attaching a node to a pair of rows, and rewriting one label of it.

A new node is inserted among its siblings by a strict comparison (`insertSibling`), either in a root
row or under the node with a given key (`withChild`). Both keep the rows placed and sorted
(`Placed.insertSibling`, `Ordered.insertSibling`, `Placed.attach`, `Ordered.attach`) and put exactly
one label into the traversal. `relabelAt_eq_map` says that rewriting the label with a given key is a
map of the whole forest.
-/

import ConfluenceEditor.Library.Placed

namespace SidedForest

namespace Forest

variable {α β κ : Type}

/-! ### A new sibling -/

/-- Insert a node without children before the first sibling it is less than. -/
def insertSibling (less : α → α → Bool) (n : α) : Forest α → Forest α
  | nil => cons n nil nil nil
  | cons a l r t =>
      if less n a then cons n nil nil (cons a l r t) else cons a l r (t.insertSibling less n)

section InsertSibling

variable {less : α → α → Bool} {n : α}

theorem map_insertSibling (less' : β → β → Bool) (f : α → β)
    (same : ∀ a b, less' (f a) (f b) = less a b) (F : Forest α) :
    (F.insertSibling less n).map f = (F.map f).insertSibling less' (f n) := by
  induction F with
  | nil => rfl
  | cons a l r t _ _ iht =>
      simp only [insertSibling, map_cons, same]
      split_ifs
      · rfl
      · rw [map_cons, iht]

/-- Only the comparisons of the new node matter. -/
theorem insertSibling_congr {less' : α → α → Bool} (same : ∀ b, less n b = less' n b)
    (F : Forest α) : F.insertSibling less n = F.insertSibling less' n := by
  induction F with
  | nil => rfl
  | cons a l r t _ _ iht => rw [insertSibling, insertSibling, same, iht]

theorem inorder_insertSibling (less : α → α → Bool) (n : α) (F : Forest α) :
    ∃ before after, F.inorder = before ++ after ∧
      (F.insertSibling less n).inorder = before ++ n :: after := by
  induction F with
  | nil => exact ⟨[], [], rfl, rfl⟩
  | cons a l r t _ _ iht =>
      unfold insertSibling
      split_ifs
      · exact ⟨[], (cons a l r t).inorder, rfl, rfl⟩
      · obtain ⟨before, after, old, new⟩ := iht
        exact ⟨l.inorder ++ a :: (r.inorder ++ before), after, by simp [inorder, old],
          by simp [inorder, new]⟩

theorem mem_roots_insertSibling {x : α} {F : Forest α} :
    x ∈ (F.insertSibling less n).roots ↔ x = n ∨ x ∈ F.roots := by
  induction F with
  | nil => simp [insertSibling]
  | cons a l r t _ _ iht =>
      unfold insertSibling
      split_ifs
      · simp
      · simp only [roots_cons, List.mem_cons, iht]
        tauto

theorem Placed.insertSibling {key : α → κ} {parent : α → Option κ} {side : α → Side}
    {p : Option κ} {s : Side} {F : Forest α} (placed : F.Placed key parent side p s)
    (under : parent n = p) (onSide : side n = s) :
    (F.insertSibling less n).Placed key parent side p s := by
  induction F with
  | nil => exact ⟨under, onSide, trivial, trivial, trivial⟩
  | cons a l r t _ _ iht =>
      unfold Forest.insertSibling
      split_ifs
      · exact ⟨under, onSide, trivial, trivial, placed⟩
      · obtain ⟨hparent, hside, inl, inr, rest⟩ := placed
        exact ⟨hparent, hside, inl, inr, iht rest⟩

/-- `R` is the non-strict order of a strict comparison. -/
structure Sorts (less : α → α → Bool) (R : α → α → Prop) : Prop where
  before : ∀ a b, less a b = true → R a b
  after : ∀ a b, less a b = false → R b a
  trans : ∀ a b c, R a b → R b c → R a c

theorem Ordered.insertSibling {R : α → α → Prop} (sorts : Sorts less R) {F : Forest α}
    (ordered : F.Ordered R) : (F.insertSibling less n).Ordered R := by
  induction F with
  | nil => exact ⟨by simp, trivial, trivial, trivial⟩
  | cons a l r t _ _ iht =>
      obtain ⟨first, ol, or, ot⟩ := ordered
      unfold Forest.insertSibling
      split_ifs with least
      · have toHead := sorts.before n a least
        refine ⟨fun b member => ?_, trivial, trivial, first, ol, or, ot⟩
        rcases List.mem_cons.mp member with rfl | later
        · exact toHead
        · exact sorts.trans n a b toHead (first b later)
      · refine ⟨fun b member => ?_, ol, or, iht ot⟩
        rcases mem_roots_insertSibling.mp member with rfl | later
        · exact sorts.after b a (by simpa using least)
        · exact first b later

end InsertSibling

/-! ### A new child -/

/-- The node rewriting that inserts `n` in the row of children on side `s`. -/
def withChild (less : α → α → Bool) (s : Side) (n : α) (a : α) (l r : Forest α) :
    α × Forest α × Forest α :=
  s.pick (a, l.insertSibling less n, r) (a, l, r.insertSibling less n)

theorem withChild_congr {less less' : α → α → Bool} {n : α} (same : ∀ b, less n b = less' n b)
    (s : Side) : withChild less s n = withChild less' s n := by
  funext a l r
  rw [withChild, withChild, insertSibling_congr same, insertSibling_congr same]

section WithChild

variable [DecidableEq κ] {key : α → κ} {parent : α → Option κ} {side : α → Side}
  {less : α → α → Bool} {n : α} {k : κ} {s : Side}

theorem Placed.attach {p₀ : Option κ} {s₀ : Side} {F F' : Forest α}
    (placed : F.Placed key parent side p₀ s₀) (under : parent n = some k) (onSide : side n = s)
    (updated : F.updateAt (key · = k) (withChild less s n) id = some F') :
    F'.Placed key parent side p₀ s₀ := by
  induction F generalizing p₀ s₀ F' with
  | nil => simp [updateAt] at updated
  | cons a l r t ihl ihr iht =>
      obtain ⟨hparent, hside, inl, inr, rest⟩ := placed
      rcases updateAt_cases updated with ⟨hit, rfl⟩ | ⟨-, l', left, rfl⟩ |
        ⟨-, -, r', right, rfl⟩ | ⟨-, -, -, t', tail, rfl⟩
      · have here : key a = k := by simpa using hit
        have named : parent n = some (key a) := by rw [under, here]
        cases s with
        | L => exact ⟨hparent, hside, inl.insertSibling named onSide, inr, rest⟩
        | R => exact ⟨hparent, hside, inl, inr.insertSibling named onSide, rest⟩
      · exact ⟨hparent, hside, ihl inl left, inr, rest⟩
      · exact ⟨hparent, hside, inl, ihr inr right, rest⟩
      · exact ⟨hparent, hside, inl, inr, iht rest tail⟩

theorem roots_attach {p : α → Bool} {F F' : Forest α}
    (updated : F.updateAt p (withChild less s n) id = some F') : F'.roots = F.roots := by
  induction F generalizing F' with
  | nil => simp [updateAt] at updated
  | cons a l r t _ _ iht =>
      rcases updateAt_cases updated with ⟨-, rfl⟩ | ⟨-, l', -, rfl⟩ |
        ⟨-, -, r', -, rfl⟩ | ⟨-, -, -, t', tail, rfl⟩
      · cases s <;> rfl
      · rfl
      · rfl
      · rw [roots_cons, roots_cons, iht tail]

theorem Ordered.attach {R : α → α → Prop} (sorts : Sorts less R) {p : α → Bool} {F F' : Forest α}
    (ordered : F.Ordered R) (updated : F.updateAt p (withChild less s n) id = some F') :
    F'.Ordered R := by
  induction F generalizing F' with
  | nil => simp [updateAt] at updated
  | cons a l r t ihl ihr iht =>
      obtain ⟨first, ol, or, ot⟩ := ordered
      rcases updateAt_cases updated with ⟨-, rfl⟩ | ⟨-, l', left, rfl⟩ |
        ⟨-, -, r', right, rfl⟩ | ⟨-, -, -, t', tail, rfl⟩
      · cases s with
        | L => exact ⟨first, ol.insertSibling sorts, or, ot⟩
        | R => exact ⟨first, ol, or.insertSibling sorts, ot⟩
      · exact ⟨first, ihl ol left, or, ot⟩
      · exact ⟨first, ol, ihr or right, ot⟩
      · refine ⟨fun b member => first b ?_, ol, or, iht ot tail⟩
        rwa [roots_attach tail] at member

end WithChild

/-! ### A new label -/

theorem map_eq_self {g : α → α} {F : Forest α} (fixed : ∀ x ∈ F.inorder, g x = x) :
    F.map g = F := by
  induction F with
  | nil => rfl
  | cons a l r t ihl ihr iht =>
      rw [map_cons, fixed a (by simp), ihl fun x member => fixed x (by simp [member]),
        ihr fun x member => fixed x (by simp [member]),
        iht fun x member => fixed x (by simp [member])]

/-- With distinct keys, rewriting the label with key `k` is a map of the forest. -/
theorem relabelAt_eq_map [DecidableEq κ] {key : α → κ} {k : κ} {g : α → α} {F F' : Forest α}
    (distinct : F.Distinct key)
    (updated : F.updateAt (key · = k) (fun a l r => (g a, l, r)) id = some F') :
    F' = F.map fun a => if key a = k then g a else a := by
  induction F generalizing F' with
  | nil => simp [updateAt] at updated
  | cons a l r t ihl ihr iht =>
      obtain ⟨dl, dr, dt, al, ar, at', lr, lt, rt⟩ := distinct.parts
      have foundIn : ∀ {G G' : Forest α},
          G.updateAt (key · = k) (fun a l r => (g a, l, r)) id = some G' →
          ∃ x ∈ G.inorder, key x = k := by
        intro G G' inner
        obtain ⟨x, lx, rx, -, -, found, -, -⟩ := updateAt_split (f := id) (fun _ => rfl) inner
        exact ⟨x, mem_of_find? found, by simpa using (find?_split found).1⟩
      have untouched : ∀ {G : Forest α}, (∀ x ∈ G.inorder, key x ≠ k) →
          G.map (fun a => if key a = k then g a else a) = G := fun none =>
        map_eq_self fun x member => if_neg (none x member)
      rcases updateAt_cases updated with ⟨hit, rfl⟩ | ⟨miss, l', left, rfl⟩ |
        ⟨miss, -, r', right, rfl⟩ | ⟨miss, -, -, t', tail, rfl⟩
      · have here : key a = k := by simpa using hit
        rw [map_cons, if_pos here, untouched fun x member => here ▸ al x member,
          untouched fun x member => here ▸ ar x member,
          untouched fun x member => here ▸ at' x member]
      · obtain ⟨x, inside, rfl⟩ := foundIn left
        rw [map_cons, if_neg (by simpa using miss), ← ihl dl left,
          untouched fun y member => (lr x inside y member).symm,
          untouched fun y member => (lt x inside y member).symm, id]
      · obtain ⟨x, inside, rfl⟩ := foundIn right
        rw [map_cons, if_neg (by simpa using miss), ← ihr dr right,
          untouched fun y member => lr y member x inside,
          untouched fun y member => (rt x inside y member).symm, id]
      · obtain ⟨x, inside, rfl⟩ := foundIn tail
        rw [map_cons, if_neg (by simpa using miss), ← iht dt tail,
          untouched fun y member => lt y member x inside,
          untouched fun y member => rt y member x inside]

end Forest

end SidedForest
