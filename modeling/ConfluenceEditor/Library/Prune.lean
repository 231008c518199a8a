/-
Dropping whole subtrees of a forest.

`prune keep` drops every tree whose root is not kept. When nothing below a dropped node is kept
(`Shut`), the traversal loses exactly the labels that are not kept (`inorder_prune`). Pruning
commutes with the insertion of a kept sibling into an ordered row, with the insertion of a kept
child under a kept node, and with a relabelling; unlinking a leaf is a pruning.
-/

import ConfluenceEditor.Library.Detach

namespace SidedForest

namespace Forest

variable {α β κ : Type} {keep : α → Bool} {less : α → α → Bool} {R : α → α → Prop} {n : α}

/-- Drop every tree whose root is not kept. -/
def prune (keep : α → Bool) : Forest α → Forest α
  | nil => nil
  | cons a l r t =>
      if keep a then cons a (l.prune keep) (r.prune keep) (t.prune keep) else t.prune keep

/-- Below a node that is not kept, nothing is kept. -/
def Shut (keep : α → Bool) : Forest α → Prop
  | nil => True
  | cons a l r t => (keep a = false → ∀ x, x ∈ l.inorder ∨ x ∈ r.inorder → keep x = false) ∧
      Shut keep l ∧ Shut keep r ∧ Shut keep t

theorem prune_cons_of_kept {a : α} (kept : keep a = true) (l r t : Forest α) :
    (cons a l r t).prune keep = cons a (l.prune keep) (r.prune keep) (t.prune keep) := if_pos kept

theorem prune_cons_of_dropped {a : α} (dropped : keep a = false) (l r t : Forest α) :
    (cons a l r t).prune keep = t.prune keep := if_neg (by simp [dropped])

theorem prune_congr {keep' : α → Bool} {F : Forest α}
    (same : ∀ x ∈ F.inorder, keep x = keep' x) : F.prune keep = F.prune keep' := by
  induction F with
  | nil => rfl
  | cons a l r t ihl ihr iht =>
      simp only [mem_inorder_cons, or_imp, forall_and] at same
      obtain ⟨here, inl, inr, later⟩ := same
      simp only [prune, here, ihl inl, ihr inr, iht later]

theorem prune_true (F : Forest α) : F.prune (fun _ => true) = F := by
  induction F with
  | nil => rfl
  | cons a l r t ihl ihr iht => rw [prune_cons_of_kept rfl, ihl, ihr, iht]

/-- Where everything is kept, nothing changes. -/
theorem prune_eq_self {F : Forest α} (all : ∀ x ∈ F.inorder, keep x = true) : F.prune keep = F :=
  (prune_congr all).trans F.prune_true

theorem prune_prune (keep' : α → Bool) (F : Forest α) :
    (F.prune keep).prune keep' = F.prune fun x => keep x && keep' x := by
  induction F with
  | nil => rfl
  | cons a l r t ihl ihr iht =>
      cases here : keep a with
      | false => rw [prune_cons_of_dropped here, prune_cons_of_dropped (by simp [here]), iht]
      | true =>
          rw [prune_cons_of_kept here]
          cases here' : keep' a with
          | false => rw [prune_cons_of_dropped here', prune_cons_of_dropped (by simp [here']), iht]
          | true =>
              rw [prune_cons_of_kept here', prune_cons_of_kept (by simp [here, here']), ihl, ihr,
                iht]

theorem prune_map {keep : β → Bool} (f : α → β) (F : Forest α) :
    (F.map f).prune keep = (F.prune fun a => keep (f a)).map f := by
  induction F with
  | nil => rfl
  | cons a l r t ihl ihr iht =>
      rw [map_cons, prune, prune, ihl, ihr, iht]
      split_ifs <;> rfl

theorem roots_prune (F : Forest α) : (F.prune keep).roots = F.roots.filter keep := by
  induction F with
  | nil => rfl
  | cons a l r t _ _ iht =>
      cases here : keep a with
      | false => rw [prune_cons_of_dropped here, iht, roots_cons, List.filter_cons_of_neg (by simp [here])]
      | true => rw [prune_cons_of_kept here, roots_cons, iht, roots_cons, List.filter_cons_of_pos here]

theorem mem_of_mem_prune {x : α} {F : Forest α} (member : x ∈ (F.prune keep).inorder) :
    x ∈ F.inorder ∧ keep x = true := by
  induction F with
  | nil => cases member
  | cons a l r t ihl ihr iht =>
      cases here : keep a with
      | false =>
          rw [prune_cons_of_dropped here] at member
          exact ⟨by simp [(iht member).1], (iht member).2⟩
      | true =>
          rw [prune_cons_of_kept here] at member
          rcases mem_inorder_cons.mp member with rfl | inl | inr | later
          · exact ⟨by simp, here⟩
          · exact ⟨by simp [(ihl inl).1], (ihl inl).2⟩
          · exact ⟨by simp [(ihr inr).1], (ihr inr).2⟩
          · exact ⟨by simp [(iht later).1], (iht later).2⟩

/-- The traversal of a pruned forest. -/
theorem inorder_prune {F : Forest α} (shut : F.Shut keep) :
    (F.prune keep).inorder = F.inorder.filter keep := by
  induction F with
  | nil => rfl
  | cons a l r t ihl ihr iht =>
      obtain ⟨below, shutl, shutr, shutt⟩ := shut
      rw [inorder, List.filter_append, List.filter_cons, List.filter_append, ← ihl shutl,
        ← ihr shutr, ← iht shutt]
      cases here : keep a with
      | false =>
          have emptyl : (l.prune keep).inorder = [] := List.eq_nil_iff_forall_not_mem.mpr
            fun x member => by
              have kept := (mem_of_mem_prune member).2
              rw [below here x (Or.inl (mem_of_mem_prune member).1)] at kept
              cases kept
          have emptyr : (r.prune keep).inorder = [] := List.eq_nil_iff_forall_not_mem.mpr
            fun x member => by
              have kept := (mem_of_mem_prune member).2
              rw [below here x (Or.inr (mem_of_mem_prune member).1)] at kept
              cases kept
          rw [prune_cons_of_dropped here, emptyl, emptyr]
          rfl
      | true =>
          rw [prune_cons_of_kept here]
          rfl

/-- A row without a kept node has none below it, when the children of a dropped node are dropped. -/
theorem Placed.dropped [DecidableEq κ] {key : α → κ} {parent : α → Option κ} {side : α → Side}
    {p : Option κ} {s : Side} {F : Forest α} (placed : F.Placed key parent side p s)
    (row : ∀ x ∈ F.roots, keep x = false)
    (closed : ∀ x y, y ∈ F.inorder → keep x = false → parent y = some (key x) → keep y = false) :
    ∀ x ∈ F.inorder, keep x = false := by
  induction F generalizing p s with
  | nil => simp
  | cons a l r t ihl ihr iht =>
      obtain ⟨-, -, inl, inr, rest⟩ := placed
      have here : keep a = false := row a (by simp)
      intro x member
      rcases mem_inorder_cons.mp member with rfl | left | right | later
      · exact here
      · refine ihl inl (fun y root => ?_) (fun y z inside => closed y z (by simp [inside])) x left
        exact closed a y (by simp [mem_of_mem_roots root]) here (inl.of_mem_roots root).1
      · refine ihr inr (fun y root => ?_) (fun y z inside => closed y z (by simp [inside])) x right
        exact closed a y (by simp [mem_of_mem_roots root]) here (inr.of_mem_roots root).1
      · exact iht rest (fun y root => row y (by simp [root]))
          (fun y z inside => closed y z (by simp [inside])) x later

theorem Placed.shut [DecidableEq κ] {key : α → κ} {parent : α → Option κ} {side : α → Side}
    {p : Option κ} {s : Side} {F : Forest α} (placed : F.Placed key parent side p s)
    (closed : ∀ x y, y ∈ F.inorder → keep x = false → parent y = some (key x) → keep y = false) :
    F.Shut keep := by
  induction F generalizing p s with
  | nil => trivial
  | cons a l r t ihl ihr iht =>
      obtain ⟨-, -, inl, inr, rest⟩ := placed
      have closedl : ∀ x y, y ∈ l.inorder → keep x = false → parent y = some (key x) →
          keep y = false := fun x y inside => closed x y (by simp [inside])
      have closedr : ∀ x y, y ∈ r.inorder → keep x = false → parent y = some (key x) →
          keep y = false := fun x y inside => closed x y (by simp [inside])
      refine ⟨fun here x member => ?_, ihl inl closedl, ihr inr closedr,
        iht rest fun x y inside => closed x y (by simp [inside])⟩
      rcases member with left | right
      · exact inl.dropped (fun y root => closedl a y (mem_of_mem_roots root) here
          (inl.of_mem_roots root).1) closedl x left
      · exact inr.dropped (fun y root => closedr a y (mem_of_mem_roots root) here
          (inr.of_mem_roots root).1) closedr x right

theorem Ordered.mono {R R' : α → α → Prop} (weaker : ∀ a b, R a b → R' a b) {F : Forest α}
    (ordered : F.Ordered R) : F.Ordered R' := by
  induction F with
  | nil => trivial
  | cons a l r t ihl ihr iht =>
      obtain ⟨first, ol, or, ot⟩ := ordered
      exact ⟨fun b root => weaker a b (first b root), ihl ol, ihr or, iht ot⟩

/-! ### Insertions -/

theorem insertSibling_of_least {F : Forest α} (least : ∀ b ∈ F.roots, less n b = true) :
    F.insertSibling less n = cons n nil nil F := by
  cases F with
  | nil => rfl
  | cons a l r t => exact if_pos (least a (by simp))

/-- In an ordered row everything behind a greater sibling is greater. -/
theorem prune_insertSibling {F : Forest α}
    (sorted : F.Ordered fun a b => less n a = true → less n b = true) (kept : keep n = true) :
    (F.insertSibling less n).prune keep = (F.prune keep).insertSibling less n := by
  induction F with
  | nil => exact if_pos kept
  | cons a l r t _ _ iht =>
      obtain ⟨first, -, -, rest⟩ := sorted
      by_cases least : less n a = true
      · have placed : (cons a l r t).insertSibling less n = cons n nil nil (cons a l r t) :=
          if_pos least
        rw [placed, prune_cons_of_kept kept]
        refine (insertSibling_of_least fun b root => ?_).symm
        rw [roots_prune] at root
        rcases List.mem_cons.mp (List.mem_filter.mp root).1 with rfl | later
        · exact least
        · exact first b later least
      · have placed : (cons a l r t).insertSibling less n = cons a l r (t.insertSibling less n) :=
          if_neg least
        rw [placed]
        cases here : keep a with
        | false => rw [prune_cons_of_dropped here, prune_cons_of_dropped here, iht rest]
        | true =>
            rw [prune_cons_of_kept here, prune_cons_of_kept here, iht rest]
            exact (if_neg least).symm

/-- A kept child under a kept node. -/
theorem prune_updateAt {p : α → Bool} {s : Side} {F F' : Forest α} (shut : F.Shut keep)
    (sorted : F.Ordered fun a b => less n a = true → less n b = true) (kept : keep n = true)
    (target : ∀ x ∈ F.inorder, p x = true → keep x = true)
    (updated : F.updateAt p (withChild less s n) id = some F') :
    (F.prune keep).updateAt p (withChild less s n) id = some (F'.prune keep) := by
  induction F generalizing F' with
  | nil => simp [updateAt] at updated
  | cons a l r t ihl ihr iht =>
      obtain ⟨below, shutl, shutr, shutt⟩ := shut
      obtain ⟨-, sortedl, sortedr, sortedt⟩ := sorted
      have here : p a = true → keep a = true := target a (by simp)
      have targetl : ∀ x ∈ l.inorder, p x = true → keep x = true := fun x member =>
        target x (by simp [member])
      have targetr : ∀ x ∈ r.inorder, p x = true → keep x = true := fun x member =>
        target x (by simp [member])
      have targett : ∀ x ∈ t.inorder, p x = true → keep x = true := fun x member =>
        target x (by simp [member])
      have absent : ∀ {G : Forest α}, G.find? p = none →
          (G.prune keep).updateAt p (withChild less s n) id = none := fun {G} none => by
        rw [updateAt_eq_none_iff, find?_eq_none_iff] at *
        exact fun x member => none x (mem_of_mem_prune member).1
      -- the node that takes the child is kept, so nothing above it is dropped
      have above : ∀ {G G' : Forest α}, G.updateAt p (withChild less s n) id = some G' →
          (∀ x ∈ G.inorder, p x = true → keep x = true) →
          (∀ x ∈ G.inorder, x ∈ l.inorder ∨ x ∈ r.inorder) → keep a = true := by
        intro G G' inner keeps inside
        obtain ⟨x, lx, rx, -, -, found, -, -⟩ := updateAt_split id (fun _ => rfl) inner
        by_contra dropped
        have kept' := keeps x (mem_of_find? found) (find?_split found).1
        rw [below (by simpa using dropped) x (inside x (mem_of_find? found))] at kept'
        cases kept'
      rcases updateAt_cases updated with ⟨hit, rfl⟩ | ⟨miss, l', inl, rfl⟩ |
        ⟨miss, noLeft, r', inr, rfl⟩ | ⟨miss, noLeft, noRight, t', later, rfl⟩
      · rw [prune_cons_of_kept (here hit), updateAt, if_pos hit]
        cases s with
        | L =>
            simp only [withChild, Side.pick_L]
            rw [prune_cons_of_kept (here hit), prune_insertSibling sortedl kept]
        | R =>
            simp only [withChild, Side.pick_R]
            rw [prune_cons_of_kept (here hit), prune_insertSibling sortedr kept]
      · have keepa := above inl targetl fun x => Or.inl
        rw [prune_cons_of_kept keepa, updateAt, if_neg miss, ihl shutl sortedl targetl inl, id,
          prune_cons_of_kept keepa]
      · have keepa := above inr targetr fun x => Or.inr
        rw [prune_cons_of_kept keepa, updateAt, if_neg miss, absent noLeft]
        simp only [ihr shutr sortedr targetr inr, id]
        rw [prune_cons_of_kept keepa]
      · have rest := iht shutt sortedt targett later
        cases keepa : keep a with
        | false => rw [prune_cons_of_dropped keepa, prune_cons_of_dropped keepa, rest]
        | true =>
            rw [prune_cons_of_kept keepa, updateAt, if_neg miss, absent noLeft]
            simp only [absent noRight, rest, Option.map_some]
            rw [prune_cons_of_kept keepa]

/-! ### Unlinking a leaf -/

theorem prune_detach [DecidableEq κ] {key : α → κ} {k : κ} {a : α} {F F' : Forest α}
    (distinct : F.Distinct key) (leaf : F.find? (key · = k) = some (a, nil, nil))
    (detached : F.detach (key · = k) id = some F') : F' = F.prune fun x => key x ≠ k := by
  have named : key a = k := by simpa using (find?_split leaf).1
  have others : ∀ {G : Forest α}, (∀ x ∈ G.inorder, key x ≠ k) →
      G.prune (fun x => key x ≠ k) = G := fun other =>
    prune_eq_self fun x member => by simpa using other x member
  have kept : ∀ {b : α} (l r t : Forest α), key a ≠ key b → (cons b l r t).prune (fun x => key x ≠ k) =
      cons b (l.prune fun x => key x ≠ k) (r.prune fun x => key x ≠ k)
        (t.prune fun x => key x ≠ k) := fun l r t other =>
    prune_cons_of_kept (by simpa [← named] using other.symm) l r t
  induction F generalizing F' with
  | nil => simp [detach] at detached
  | cons b l r t ihl ihr iht =>
      obtain ⟨distinctl, distinctr, distinctt, apartl, apartr, apartt, between, lt, rt⟩ :=
        distinct.parts
      rcases detach_leaf_cases leaf detached with ⟨rfl, rfl, rfl, rfl⟩ |
        ⟨l', leaf', inl, rfl⟩ | ⟨r', leaf', inr, rfl⟩ | ⟨t', leaf', later, rfl⟩
      · rw [prune_cons_of_dropped (by simp [named]), others fun x member same => ?_]
        exact apartt x member (same.trans named.symm)
      · have inside := mem_of_find? leaf'
        rw [kept l r t (apartl a inside), ← ihl distinctl leaf' inl, others, others]
        · rfl
        · exact fun x member same => lt a inside x member (named.trans same.symm)
        · exact fun x member same => between a inside x member (named.trans same.symm)
      · have inside := mem_of_find? leaf'
        rw [kept l r t (apartr a inside), ← ihr distinctr leaf' inr, others, others]
        · rfl
        · exact fun x member same => rt a inside x member (named.trans same.symm)
        · exact fun x member same => between x member a inside (same.trans named.symm)
      · have inside := mem_of_find? leaf'
        rw [kept l r t (apartt a inside), ← iht distinctt leaf' later, others, others]
        · exact fun x member same => rt x member a inside (same.trans named.symm)
        · exact fun x member same => lt x member a inside (same.trans named.symm)

end Forest

/-! ### The two root rows -/

open Forest

variable {α κ : Type} [DecidableEq κ] {key : α → κ} {parent : α → Option κ} {side : α → Side}
  {R : α → α → Prop} {keep : α → Bool} {less : α → α → Bool} {n : α}
  {left right left' right' : Forest α}

namespace Rows

/-- The dropped nodes of a tree include the children of each. -/
def ClosedBelow (key : α → κ) (parent : α → Option κ) (keep : α → Bool)
    (left right : Forest α) : Prop :=
  ∀ x y, y ∈ left.inorder ++ right.inorder → keep x = false → parent y = some (key x) →
    keep y = false

theorem shut (rows : Rows key parent side R left right)
    (closed : ClosedBelow key parent keep left right) : left.Shut keep ∧ right.Shut keep :=
  ⟨rows.placedLeft.shut fun x y inside => closed x y (List.mem_append_left _ inside),
    rows.placedRight.shut fun x y inside => closed x y (List.mem_append_right _ inside)⟩

/-- The traversal of the two pruned rows. -/
theorem inorder_prune (rows : Rows key parent side R left right)
    (closed : ClosedBelow key parent keep left right) :
    (left.prune keep).inorder ++ (right.prune keep).inorder =
      (left.inorder ++ right.inorder).filter keep := by
  obtain ⟨shutLeft, shutRight⟩ := rows.shut closed
  rw [List.filter_append, Forest.inorder_prune shutLeft, Forest.inorder_prune shutRight]

omit [DecidableEq κ] in
/-- A new kept root. -/
theorem prune_insertIn (rows : Rows key parent side R left right)
    (sorted : ∀ a b, R a b → less n a = true → less n b = true) (kept : keep n = true) (s : Side) :
    SidedForest.insertIn less s n (left.prune keep) (right.prune keep) =
      ((SidedForest.insertIn less s n left right).1.prune keep,
        (SidedForest.insertIn less s n left right).2.prune keep) := by
  cases s with
  | L =>
      simp only [SidedForest.insertIn, Side.pick_L]
      rw [prune_insertSibling (rows.orderedLeft.mono sorted) kept]
  | R =>
      simp only [SidedForest.insertIn, Side.pick_R]
      rw [prune_insertSibling (rows.orderedRight.mono sorted) kept]

/-- A new kept child of a kept node. -/
theorem prune_updateIn (rows : Rows key parent side R left right)
    (closed : ClosedBelow key parent keep left right)
    (sorted : ∀ a b, R a b → less n a = true → less n b = true) (kept : keep n = true)
    {p : α → Bool} (target : ∀ x ∈ left.inorder ++ right.inorder, p x = true → keep x = true)
    {s : Side} (updated : updateIn p (withChild less s n) id left right = some (left', right')) :
    updateIn p (withChild less s n) id (left.prune keep) (right.prune keep) =
      some (left'.prune keep, right'.prune keep) := by
  obtain ⟨shutLeft, shutRight⟩ := rows.shut closed
  rcases updateIn_cases updated with ⟨left₁, inl, same⟩ | ⟨noLeft, right₁, inr, same⟩
  · obtain ⟨rfl, rfl⟩ := Prod.mk.inj same
    rw [updateIn, prune_updateAt shutLeft (rows.orderedLeft.mono sorted) kept
      (fun x member => target x (List.mem_append_left _ member)) inl]
  · obtain ⟨rfl, rfl⟩ := Prod.mk.inj same
    have absent : (left'.prune keep).updateAt p (withChild less s n) id = none := by
      rw [updateAt_eq_none_iff, find?_eq_none_iff] at *
      exact fun x member => noLeft x (mem_of_mem_prune member).1
    rw [updateIn, absent, prune_updateAt shutRight (rows.orderedRight.mono sorted) kept
      (fun x member => target x (List.mem_append_right _ member)) inr]
    rfl

/-- Unlinking the leaf with key `k`. -/
theorem prune_detachIn {k : κ} {a : α} (rows : Rows key parent side R left right)
    (leaf : findIn (key · = k) left right = some (a, nil, nil))
    (detached : detachIn (key · = k) id left right = some (left', right')) :
    left' = left.prune (fun x => key x ≠ k) ∧ right' = right.prune fun x => key x ≠ k := by
  have named : key a = k := by simpa using (findIn_split leaf).1
  rcases detachIn_cases leaf detached with ⟨leaf', inl, rfl⟩ | ⟨noLeft, leaf', inr, rfl⟩
  · refine ⟨prune_detach rows.distinctLeft leaf' inl, (prune_eq_self fun x member => ?_).symm⟩
    have apart := rows.disjoint a (mem_of_find? leaf') x member
    simpa [← named] using apart.symm
  · refine ⟨(prune_eq_self fun x member => ?_).symm, prune_detach rows.distinctRight leaf' inr⟩
    have other := find?_eq_none_iff.mp noLeft x member
    simpa using other

end Rows

end SidedForest
