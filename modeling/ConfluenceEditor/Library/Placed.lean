/-
A sided forest is determined by its labels.

`Placed` says that the labels name their own position (the key of the parent and the side of the
row), `Ordered` that every row is sorted by a relation. The children of a node are then exactly the
labels that name it (`Placed.mem_childrenAt`), so two forests over the same labels have rows with
the same members, and a sorted row is determined by its members: `Rows.eq_of_mem_iff`.
-/

import ConfluenceEditor.Library.Forest
import Mathlib.Data.List.Sort

namespace SidedForest

namespace Forest

set_option linter.unusedSectionVars false

variable {α κ : Type} [DecidableEq κ] (key : α → κ) (parent : α → Option κ) (side : α → Side)

/-! ### Positions named by the labels -/

/-- Every label names the key of the node it hangs under and the side of its row. -/
def Placed (p : Option κ) (s : Side) : Forest α → Prop
  | nil => True
  | cons a l r t => parent a = p ∧ side a = s ∧ Placed (some (key a)) .L l ∧
      Placed (some (key a)) .R r ∧ Placed p s t

/-- Every row is sorted by `R`. -/
def Ordered (R : α → α → Prop) : Forest α → Prop
  | nil => True
  | cons a l r t => (∀ b ∈ t.roots, R a b) ∧ Ordered R l ∧ Ordered R r ∧ Ordered R t

/-- The children on side `s` of the nodes with key `k`. -/
def childrenAt (k : κ) (s : Side) : Forest α → List α
  | nil => []
  | cons a l r t =>
      (if key a = k then s.pick l.roots r.roots else []) ++
        (childrenAt k s l ++ childrenAt k s r ++ childrenAt k s t)

variable {key parent side}

theorem childrenAt_cons (k : κ) (s : Side) (a : α) (l r t : Forest α) :
    (cons a l r t).childrenAt key k s = (if key a = k then s.pick l.roots r.roots else []) ++
      (l.childrenAt key k s ++ r.childrenAt key k s ++ t.childrenAt key k s) := rfl

theorem Placed.of_mem_roots {p : Option κ} {s : Side} {F : Forest α}
    (placed : F.Placed key parent side p s) {x : α} (root : x ∈ F.roots) :
    parent x = p ∧ side x = s := by
  induction F with
  | nil => cases root
  | cons a l r t _ _ iht =>
      obtain ⟨hparent, hside, -, -, rest⟩ := placed
      rcases List.mem_cons.mp root with rfl | later
      · exact ⟨hparent, hside⟩
      · exact iht rest later

/-- The labels that name position `(k, s)` are the children there, or the row itself when the row
stands at that position. -/
theorem Placed.mem_childrenAt {p : Option κ} {s₀ s : Side} {k : κ} {F : Forest α}
    (placed : F.Placed key parent side p s₀) (x : α) :
    (x ∈ F.inorder ∧ parent x = some k ∧ side x = s) ↔
      (x ∈ F.roots ∧ p = some k ∧ s₀ = s) ∨ x ∈ F.childrenAt key k s := by
  induction F generalizing p s₀ with
  | nil => simp [childrenAt]
  | cons a l r t ihl ihr iht =>
      obtain ⟨hparent, hside, inl, inr, rest⟩ := placed
      have left := ihl inl
      have right := ihr inr
      have tail := iht rest
      have head : (x = a ∧ parent x = some k ∧ side x = s) ↔ x = a ∧ p = some k ∧ s₀ = s := by
        constructor
        · rintro ⟨rfl, named, onSide⟩
          exact ⟨rfl, hparent ▸ named, hside ▸ onSide⟩
        · rintro ⟨rfl, rfl, rfl⟩
          exact ⟨rfl, hparent, hside⟩
      have here : x ∈ (if key a = k then s.pick l.roots r.roots else []) ↔
          (x ∈ l.roots ∧ some (key a) = some k ∧ Side.L = s) ∨
            (x ∈ r.roots ∧ some (key a) = some k ∧ Side.R = s) := by
        cases s <;> split_ifs with same <;> simp [same]
      rw [mem_inorder_cons, or_and_right, or_and_right, or_and_right, head, left, right, tail,
        roots_cons, List.mem_cons, or_and_right, childrenAt_cons, List.mem_append, here,
        List.mem_append, List.mem_append]
      exact Iff.of_eq (by ac_rfl)

theorem childrenAt_eq_nil {k : κ} {s : Side} {F : Forest α}
    (absent : ∀ x ∈ F.inorder, key x ≠ k) : F.childrenAt key k s = [] := by
  induction F with
  | nil => rfl
  | cons a l r t ihl ihr iht =>
      have notHere : key a ≠ k := absent a (by simp)
      simp only [childrenAt_cons, if_neg notHere, List.nil_append]
      rw [ihl fun x member => absent x (by simp [member]),
        ihr fun x member => absent x (by simp [member]),
        iht fun x member => absent x (by simp [member])]
      rfl

/-! ### Forests that hold every child -/

variable (key parent side) in
/-- Below every label, the two rows are exactly the labels of `M` that name it. -/
def Complete (M : α → Prop) : Forest α → Prop
  | nil => True
  | cons a l r t =>
      (∀ x, x ∈ l.roots ↔ M x ∧ parent x = some (key a) ∧ side x = .L) ∧
      (∀ x, x ∈ r.roots ↔ M x ∧ parent x = some (key a) ∧ side x = .R) ∧
      Complete M l ∧ Complete M r ∧ Complete M t

/-- The keys of a forest are distinct. -/
abbrev Distinct (key : α → κ) (F : Forest α) : Prop := (F.inorder.map key).Nodup

theorem Distinct.parts {a : α} {l r t : Forest α} (distinct : (cons a l r t).Distinct key) :
    l.Distinct key ∧ r.Distinct key ∧ t.Distinct key ∧
      (∀ x ∈ l.inorder, key x ≠ key a) ∧ (∀ x ∈ r.inorder, key x ≠ key a) ∧
      (∀ x ∈ t.inorder, key x ≠ key a) ∧
      (∀ x ∈ l.inorder, ∀ y ∈ r.inorder, key x ≠ key y) ∧
      (∀ x ∈ l.inorder, ∀ y ∈ t.inorder, key x ≠ key y) ∧
      (∀ x ∈ r.inorder, ∀ y ∈ t.inorder, key x ≠ key y) := by
  simp only [Distinct, inorder, List.map_append, List.map_cons, List.nodup_append,
    List.nodup_cons, List.mem_append, List.mem_cons, List.mem_map] at distinct ⊢
  grind

theorem Complete.of_childrenAt {M : α → Prop} {F : Forest α} (distinct : F.Distinct key)
    (full : ∀ a ∈ F.inorder, ∀ s x,
      (M x ∧ parent x = some (key a) ∧ side x = s) ↔ x ∈ F.childrenAt key (key a) s) :
    F.Complete key parent side M := by
  induction F with
  | nil => trivial
  | cons a l r t ihl ihr iht =>
      obtain ⟨dl, dr, dt, al, ar, at', lr, lt, rt⟩ := distinct.parts
      have here := full a (by simp)
      simp only [childrenAt_cons, childrenAt_eq_nil al, childrenAt_eq_nil ar, childrenAt_eq_nil at',
        if_true, List.append_nil] at here
      refine ⟨fun x => (here .L x).symm, fun x => (here .R x).symm, ihl dl ?_, ihr dr ?_, iht dt ?_⟩
      · intro b member s x
        rw [full b (by simp [member])]
        simp only [childrenAt_cons, if_neg (al b member).symm,
          childrenAt_eq_nil (F := r) fun y inr => (lr b member y inr).symm,
          childrenAt_eq_nil (F := t) fun y inr => (lt b member y inr).symm,
          List.nil_append, List.append_nil]
      · intro b member s x
        rw [full b (by simp [member])]
        simp only [childrenAt_cons, if_neg (ar b member).symm,
          childrenAt_eq_nil (F := l) fun y inl => lr y inl b member,
          childrenAt_eq_nil (F := t) fun y inl => (rt b member y inl).symm,
          List.nil_append, List.append_nil]
      · intro b member s x
        rw [full b (by simp [member])]
        simp only [childrenAt_cons, if_neg (at' b member).symm,
          childrenAt_eq_nil (F := l) fun y inl => lt y inl b member,
          childrenAt_eq_nil (F := r) fun y inl => rt y inl b member,
          List.nil_append, List.append_nil]

/-! ### Reading the labels through a map -/

theorem placed_map {β : Type} (f : β → α) {p : Option κ} {s : Side} {F : Forest β} :
    (F.map f).Placed key parent side p s ↔
      F.Placed (fun b => key (f b)) (fun b => parent (f b)) (fun b => side (f b)) p s := by
  induction F generalizing p s with
  | nil => exact Iff.rfl
  | cons a l r t ihl ihr iht => simp only [map_cons, Placed, ihl, ihr, iht]

theorem ordered_map {β : Type} (f : β → α) {R : α → α → Prop} {F : Forest β} :
    (F.map f).Ordered R ↔ F.Ordered fun a b => R (f a) (f b) := by
  induction F with
  | nil => exact Iff.rfl
  | cons a l r t ihl ihr iht =>
      simp only [map_cons, Ordered, ihl, ihr, iht, roots_map, List.forall_mem_map]

/-! ### Uniqueness -/

theorem Ordered.roots_pairwise {R : α → α → Prop} {F : Forest α} (ordered : F.Ordered R) :
    F.roots.Pairwise R := by
  induction F with
  | nil => exact List.Pairwise.nil
  | cons a l r t _ _ iht => exact List.Pairwise.cons ordered.1 (iht ordered.2.2.2)

theorem Distinct.roots_nodup {F : Forest α} (distinct : F.Distinct key) : F.roots.Nodup := by
  induction F with
  | nil => exact List.nodup_nil
  | cons a l r t _ _ iht =>
      obtain ⟨-, -, dt, -, -, at', -⟩ := distinct.parts
      exact List.nodup_cons.mpr ⟨fun member => at' a (mem_of_mem_roots member) rfl, iht dt⟩

/-- A sorted row is determined by its members. -/
theorem roots_eq_of_mem_iff {R : α → α → Prop} {F G : Forest α}
    (orderedF : F.Ordered R) (orderedG : G.Ordered R)
    (distinctF : F.Distinct key) (distinctG : G.Distinct key)
    (antisymm : ∀ a ∈ F.roots, ∀ b ∈ G.roots, R a b → R b a → a = b)
    (same : ∀ x, x ∈ F.roots ↔ x ∈ G.roots) : F.roots = G.roots :=
  ((List.perm_ext_iff_of_nodup distinctF.roots_nodup distinctG.roots_nodup).mpr same).eq_of_pairwise
    (fun a b inF inG => antisymm a inF b inG) orderedF.roots_pairwise orderedG.roots_pairwise

/-- Two sorted forests that hold every child of `M`, with the same row of roots, are equal. -/
theorem Complete.eq_of_roots_eq {M : α → Prop} {R : α → α → Prop}
    (antisymm : ∀ a b, M a → M b → parent a = parent b → side a = side b → R a b → R b a → a = b)
    {F G : Forest α} (completeF : F.Complete key parent side M)
    (completeG : G.Complete key parent side M) (orderedF : F.Ordered R) (orderedG : G.Ordered R)
    (distinctF : F.Distinct key) (distinctG : G.Distinct key) (same : F.roots = G.roots) :
    F = G := by
  induction F generalizing G with
  | nil =>
      cases G with
      | nil => rfl
      | cons => simp at same
  | cons a l r t ihl ihr iht =>
      cases G with
      | nil => simp at same
      | cons b l' r' t' =>
          simp only [roots_cons, List.cons.injEq] at same
          obtain ⟨rfl, sameTail⟩ := same
          obtain ⟨leftF, rightF, cl, cr, ct⟩ := completeF
          obtain ⟨leftG, rightG, cl', cr', ct'⟩ := completeG
          obtain ⟨-, ol, or, ot⟩ := orderedF
          obtain ⟨-, ol', or', ot'⟩ := orderedG
          obtain ⟨dl, dr, dt, -⟩ := distinctF.parts
          obtain ⟨dl', dr', dt', -⟩ := distinctG.parts
          have sameLeft : l.roots = l'.roots :=
            roots_eq_of_mem_iff ol ol' dl dl'
              (fun x inl y inr => by
                obtain ⟨hx, px, sx⟩ := (leftF x).mp inl
                obtain ⟨hy, py, sy⟩ := (leftG y).mp inr
                exact antisymm x y hx hy (px.trans py.symm) (sx.trans sy.symm))
              fun x => (leftF x).trans (leftG x).symm
          have sameRight : r.roots = r'.roots :=
            roots_eq_of_mem_iff or or' dr dr'
              (fun x inl y inr => by
                obtain ⟨hx, px, sx⟩ := (rightF x).mp inl
                obtain ⟨hy, py, sy⟩ := (rightG y).mp inr
                exact antisymm x y hx hy (px.trans py.symm) (sx.trans sy.symm))
              fun x => (rightF x).trans (rightG x).symm
          rw [ihl cl cl' ol ol' dl dl' sameLeft, ihr cr cr' or or' dr dr' sameRight,
            iht ct ct' ot ot' dt dt' sameTail]

end Forest

/-! ### A pair of root rows -/

section Rows

open Forest

set_option linter.unusedSectionVars false

variable {α κ : Type} [DecidableEq κ] {key : α → κ} {parent : α → Option κ} {side : α → Side}

/-- Two rows hanging under a root that is no label: placed, sorted, with distinct keys. -/
structure Rows (key : α → κ) (parent : α → Option κ) (side : α → Side) (R : α → α → Prop)
    (left right : Forest α) : Prop where
  placedLeft : left.Placed key parent side none .L
  placedRight : right.Placed key parent side none .R
  orderedLeft : left.Ordered R
  orderedRight : right.Ordered R
  distinct : ((left.inorder ++ right.inorder).map key).Nodup

namespace Rows

variable {R : α → α → Prop} {left right left' right' : Forest α}

theorem map_iff {β : Type} (f : β → α) {F G : Forest β} :
    Rows key parent side R (F.map f) (G.map f) ↔
      Rows (fun b => key (f b)) (fun b => parent (f b)) (fun b => side (f b))
        (fun a b => R (f a) (f b)) F G := by
  have keys : ((F.map f).inorder ++ (G.map f).inorder).map key =
      (F.inorder ++ G.inorder).map fun b => key (f b) := by simp [Function.comp_def]
  constructor
  · rintro ⟨pl, pr, ol, or, distinct⟩
    exact ⟨(placed_map f).mp pl, (placed_map f).mp pr, (ordered_map f).mp ol,
      (ordered_map f).mp or, keys ▸ distinct⟩
  · rintro ⟨pl, pr, ol, or, distinct⟩
    exact ⟨(placed_map f).mpr pl, (placed_map f).mpr pr, (ordered_map f).mpr ol,
      (ordered_map f).mpr or, keys ▸ distinct⟩

theorem distinctLeft (rows : Rows key parent side R left right) : left.Distinct key :=
  ((List.map_append ▸ rows.distinct : (left.inorder.map key ++ _).Nodup)).of_append_left

theorem distinctRight (rows : Rows key parent side R left right) : right.Distinct key :=
  ((List.map_append ▸ rows.distinct : (left.inorder.map key ++ _).Nodup)).of_append_right

theorem disjoint (rows : Rows key parent side R left right) :
    ∀ x ∈ left.inorder, ∀ y ∈ right.inorder, key x ≠ key y := by
  have distinct := rows.distinct
  rw [List.map_append, List.nodup_append] at distinct
  exact fun x inl y inr =>
    distinct.2.2 _ (List.mem_map_of_mem inl) _ (List.mem_map_of_mem inr)

/-- A label whose parent is named hangs in the children of that parent. -/
theorem mem_childrenAt (rows : Rows key parent side R left right) (k : κ) (s : Side) (x : α) :
    (x ∈ left.inorder ++ right.inorder ∧ parent x = some k ∧ side x = s) ↔
      x ∈ left.childrenAt key k s ++ right.childrenAt key k s := by
  have inLeft := rows.placedLeft.mem_childrenAt (k := k) (s := s) x
  have inRight := rows.placedRight.mem_childrenAt (k := k) (s := s) x
  simp only [reduceCtorEq, false_and, and_false, false_or] at inLeft inRight
  rw [List.mem_append, List.mem_append, ← inLeft, ← inRight]
  tauto

/-- The labels without a parent are the roots. -/
theorem mem_roots (rows : Rows key parent side R left right) (s : Side) (x : α) :
    (x ∈ left.inorder ++ right.inorder ∧ parent x = none ∧ side x = s) ↔
      x ∈ (s.pick left right).roots := by
  have rootOf : ∀ {p : Option κ} {s₀ : Side} {F : Forest α}, F.Placed key parent side p s₀ →
      x ∈ F.inorder → parent x = none → x ∈ F.roots ∧ p = none := by
    intro p s₀ F placed member orphan
    induction F generalizing p s₀ with
    | nil => cases member
    | cons a l r t ihl ihr iht =>
        obtain ⟨hparent, -, inl, inr, rest⟩ := placed
        rcases mem_inorder_cons.mp member with rfl | inside | inside | inside
        · exact ⟨by simp, hparent.symm.trans orphan⟩
        · exact absurd (ihl inl inside).2 (by simp)
        · exact absurd (ihr inr inside).2 (by simp)
        · exact ⟨by simp [(iht rest inside).1], (iht rest inside).2⟩
  constructor
  · rintro ⟨member, orphan, rfl⟩
    rcases List.mem_append.mp member with inside | inside
    · have root := (rootOf rows.placedLeft inside orphan).1
      rw [(rows.placedLeft.of_mem_roots root).2]
      exact root
    · have root := (rootOf rows.placedRight inside orphan).1
      rw [(rows.placedRight.of_mem_roots root).2]
      exact root
  · cases s with
    | L =>
        intro root
        exact ⟨List.mem_append_left _ (mem_of_mem_roots root), rows.placedLeft.of_mem_roots root⟩
    | R =>
        intro root
        exact ⟨List.mem_append_right _ (mem_of_mem_roots root), rows.placedRight.of_mem_roots root⟩

theorem complete (rows : Rows key parent side R left right) :
    left.Complete key parent side (· ∈ left.inorder ++ right.inorder) ∧
      right.Complete key parent side (· ∈ left.inorder ++ right.inorder) := by
  constructor
  · refine Complete.of_childrenAt rows.distinctLeft fun a member s x => ?_
    rw [rows.mem_childrenAt, childrenAt_eq_nil (F := right) fun y inr =>
      (rows.disjoint a member y inr).symm, List.append_nil]
  · refine Complete.of_childrenAt rows.distinctRight fun a member s x => ?_
    rw [rows.mem_childrenAt, childrenAt_eq_nil (F := left) fun y inl =>
      rows.disjoint y inl a member, List.nil_append]

/-- Two pairs of rows with the same labels are the same, when the relation tells siblings apart. -/
theorem eq_of_mem_iff (rows : Rows key parent side R left right)
    (rows' : Rows key parent side R left' right')
    (antisymm : ∀ a ∈ left.inorder ++ right.inorder, ∀ b ∈ left.inorder ++ right.inorder,
      parent a = parent b → side a = side b → R a b → R b a → a = b)
    (same : ∀ x, x ∈ left.inorder ++ right.inorder ↔ x ∈ left'.inorder ++ right'.inorder) :
    left = left' ∧ right = right' := by
  obtain ⟨completeLeft, completeRight⟩ := rows.complete
  have sameM : (· ∈ left'.inorder ++ right'.inorder) = (· ∈ left.inorder ++ right.inorder) :=
    funext fun x => propext (same x).symm
  obtain ⟨completeLeft', completeRight'⟩ := sameM ▸ rows'.complete
  have onLeft : ∀ x, x ∈ left.roots ↔ x ∈ left'.roots := fun x => by
    exact ((rows.mem_roots .L x).symm.trans (by rw [same])).trans (rows'.mem_roots .L x)
  have onRight : ∀ x, x ∈ right.roots ↔ x ∈ right'.roots := fun x => by
    exact ((rows.mem_roots .R x).symm.trans (by rw [same])).trans (rows'.mem_roots .R x)
  have separated := fun a b ha hb => antisymm a ha b hb
  constructor
  · refine completeLeft.eq_of_roots_eq separated completeLeft' rows.orderedLeft
      rows'.orderedLeft rows.distinctLeft rows'.distinctLeft ?_
    refine roots_eq_of_mem_iff rows.orderedLeft rows'.orderedLeft rows.distinctLeft
      rows'.distinctLeft (fun a inl b inr => ?_) onLeft
    obtain ⟨ha, pa, sa⟩ := (rows.mem_roots .L a).mpr inl
    obtain ⟨hb, pb, sb⟩ := (rows.mem_roots .L b).mpr ((onLeft b).mpr inr)
    exact antisymm a ha b hb (pa.trans pb.symm) (sa.trans sb.symm)
  · refine completeRight.eq_of_roots_eq separated completeRight' rows.orderedRight
      rows'.orderedRight rows.distinctRight rows'.distinctRight ?_
    refine roots_eq_of_mem_iff rows.orderedRight rows'.orderedRight rows.distinctRight
      rows'.distinctRight (fun a inl b inr => ?_) onRight
    obtain ⟨ha, pa, sa⟩ := (rows.mem_roots .R a).mpr inl
    obtain ⟨hb, pb, sb⟩ := (rows.mem_roots .R b).mpr ((onRight b).mpr inr)
    exact antisymm a ha b hb (pa.trans pb.symm) (sa.trans sb.symm)

end Rows

end Rows

end SidedForest
