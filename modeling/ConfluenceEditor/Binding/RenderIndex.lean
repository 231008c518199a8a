/-
The index of the rendered runs.

The text of the document stands in text nodes, one for each run; the index has the position and the
two lengths of every run. `layout` is the index of a text in pieces. The binary search finds the piece
that a position is in, and at a boundary the later one of the two (`findRunForVis_layout`).
-/

import ConfluenceEditor.Binding.UnicodeOffsets
import ConfluenceEditor.Library.Bisection
import ConfluenceEditor.Library.Pieces
import Mathlib.Data.List.Induction

namespace ConfluenceEditor

open UnicodeOffsets

/-- A text node: its identity and its code units. -/
structure Text where
  id : Nat
  data : List Nat
  deriving DecidableEq, Repr

structure RenderRun where
  textNode : Text
  startVis : Nat
  scalarLen : Nat
  utf16Len : Nat
  deriving DecidableEq, Repr

namespace RenderIndex

def RUN_MAX_SCALARS : Nat := 512

theorem RUN_MAX_SCALARS_pos : 0 < RUN_MAX_SCALARS := by decide

def totalVisibleLength (index : List RenderRun) : Nat :=
  match index.getLast? with
  | none => 0
  | some last => last.startVis + last.scalarLen

def startVisAt (index : List RenderRun) (i : Nat) : Nat :=
  (index[i]?.map RenderRun.startVis).getD 0

/-- The last run that starts at or before `v`, unless `v` is beyond its end. -/
def findRunForVis (index : List RenderRun) (v : Nat) : Option (RenderRun × Nat) :=
  if index = [] then none
  else
    let lo := Bisection.last (fun mid => decide (startVisAt index mid ≤ v)) 0 (index.length - 1)
    match index[lo]? with
    | none => none
    | some run =>
        if v < run.startVis ∨ run.startVis + run.scalarLen < v then none else some (run, lo)

/-! ### A text in pieces -/

/-- The scalars of one text node. -/
structure Piece where
  node : Nat
  scalars : List Nat

def Piece.run (p : Piece) (start : Nat) : RenderRun :=
  ⟨⟨p.node, Utf16.encode p.scalars⟩, start, p.scalars.length, (Utf16.encode p.scalars).length⟩

def layout : Nat → List Piece → List RenderRun
  | _, [] => []
  | start, p :: pieces => p.run start :: layout (start + p.scalars.length) pieces

/-- The whole text. -/
def text (pieces : List Piece) : List Nat := (pieces.map Piece.scalars).flatten

variable {start : Nat} {pieces before after : List Piece} {p : Piece}

@[simp] theorem text_nil : text [] = [] := rfl

@[simp] theorem text_cons (p : Piece) (pieces : List Piece) :
    text (p :: pieces) = p.scalars ++ text pieces := by
  rw [text, List.map_cons, List.flatten_cons]
  rfl

@[simp] theorem text_append (pieces pieces' : List Piece) :
    text (pieces ++ pieces') = text pieces ++ text pieces' := by
  rw [text, List.map_append, List.flatten_append]
  rfl

@[simp] theorem length_layout (start : Nat) (pieces : List Piece) :
    (layout start pieces).length = pieces.length := by
  induction pieces generalizing start with
  | nil => rfl
  | cons p pieces ih => exact congrArg Nat.succ (ih _)

theorem layout_append (start : Nat) (before after : List Piece) :
    layout start (before ++ after) =
      layout start before ++ layout (start + (text before).length) after := by
  induction before generalizing start with
  | nil => rfl
  | cons p before ih =>
      rw [List.cons_append, layout, layout, ih, List.cons_append, text_cons, List.length_append,
        Nat.add_assoc]

theorem getElem?_layout (start : Nat) (before : List Piece) (p : Piece) (after : List Piece) :
    (layout start (before ++ p :: after))[before.length]? =
      some (p.run (start + (text before).length)) := by
  rw [layout_append, List.getElem?_append_right (by rw [length_layout]), length_layout,
    Nat.sub_self]
  rfl

theorem take_layout (start : Nat) (before after : List Piece) :
    (layout start (before ++ after)).take before.length = layout start before := by
  rw [layout_append]
  exact List.take_left' (length_layout start before)

theorem drop_layout (start : Nat) (before : List Piece) (p : Piece) (after : List Piece) :
    (layout start (before ++ p :: after)).drop (before.length + 1) =
      layout (start + (text before).length + p.scalars.length) after := by
  rw [layout_append, layout, List.append_cons]
  refine List.drop_left' ?_
  rw [List.length_append, length_layout, List.length_singleton]

theorem startVis_layout {start : Nat} {runs runs' : List RenderRun} {run : RenderRun}
    (split : layout start pieces = runs ++ run :: runs') :
    run.startVis = start + (runs.map RenderRun.scalarLen).sum := by
  induction runs generalizing start pieces with
  | nil =>
      cases pieces with
      | nil => cases split
      | cons p pieces =>
          have same : p.run start = run := (List.cons.inj split).1
          rw [← same]
          rfl
  | cons first runs ih =>
      cases pieces with
      | nil => cases split
      | cons p pieces =>
          have ⟨same, rest⟩ := List.cons.inj split
          rw [ih rest, ← same, List.map_cons, List.sum_cons, Nat.add_assoc]
          rfl

theorem mem_layout {start : Nat} {run : RenderRun} (member : run ∈ layout start pieces) :
    ∃ p ∈ pieces, run = p.run run.startVis := by
  induction pieces generalizing start with
  | nil => cases member
  | cons p pieces ih =>
      rcases List.mem_cons.mp member with same | later
      · exact ⟨p, List.mem_cons_self, by rw [same]; rfl⟩
      · have ⟨q, inside, own⟩ := ih later
        exact ⟨q, List.mem_cons_of_mem p inside, own⟩

theorem map_id_layout (start : Nat) (pieces : List Piece) :
    (layout start pieces).map (·.textNode.id) = pieces.map Piece.node := by
  induction pieces generalizing start with
  | nil => rfl
  | cons p pieces ih => exact congrArg (p.node :: ·) (ih _)

theorem totalVisibleLength_layout (pieces : List Piece) :
    totalVisibleLength (layout 0 pieces) = (text pieces).length := by
  induction pieces using List.reverseRecOn with
  | nil => rfl
  | append_singleton pieces p ih =>
      have last : (layout 0 (pieces ++ [p])).getLast? =
          some (p.run (text pieces).length) := by
        rw [layout_append, layout, layout, List.getLast?_concat, Nat.zero_add]
      rw [totalVisibleLength, last, text_append, List.length_append, text_cons, text_nil,
        List.append_nil]
      rfl

/-- Where the binary search ends. -/
theorem findRunForVis_layout (nonempty : pieces ≠ []) {v : Nat}
    (inside : v ≤ (text pieces).length) : ∃ before p after k, pieces = before ++ p :: after ∧
      v = (text before).length + k ∧ k ≤ p.scalars.length ∧
      (after ≠ [] → k < p.scalars.length) ∧
      findRunForVis (layout 0 pieces) v = some (p.run (text before).length, before.length) := by
  have length := length_layout 0 pieces
  have least := List.length_pos_iff.mpr nonempty
  have first : decide (startVisAt (layout 0 pieces) 0 ≤ v) = true := by
    rw [decide_eq_true_iff]
    cases pieces with
    | nil => exact absurd rfl nonempty
    | cons p pieces => exact Nat.zero_le v
  have ⟨bound, starts, next⟩ := Bisection.last_spec (fun mid =>
    decide (startVisAt (layout 0 pieces) mid ≤ v)) (Nat.zero_le ((layout 0 pieces).length - 1)) first
  set i := Bisection.last (fun mid => decide (startVisAt (layout 0 pieces) mid ≤ v)) 0
    ((layout 0 pieces).length - 1) with hi
  have within : i < pieces.length := by omega
  set p := pieces[i]
  have split : pieces = pieces.take i ++ p :: pieces.drop (i + 1) := by
    rw [List.getElem_cons_drop, List.take_append_drop]
  have position : (pieces.take i).length = i := List.length_take_of_le (Nat.le_of_lt within)
  have found : (layout 0 pieces)[i]? = some (p.run (text (pieces.take i)).length) := by
    have here := getElem?_layout 0 (pieces.take i) p (pieces.drop (i + 1))
    rwa [← split, position, Nat.zero_add] at here
  have begins : (text (pieces.take i)).length ≤ v := by
    have passed := of_decide_eq_true starts
    rwa [startVisAt, found] at passed
  have ⟨k, sum⟩ := Nat.exists_eq_add_of_le begins
  have whole : (text pieces).length = (text (pieces.take i)).length + p.scalars.length +
      (text (pieces.drop (i + 1))).length := by
    conv_lhs => rw [split]
    rw [text_append, text_cons, List.length_append, List.length_append, Nat.add_assoc]
  -- the next run starts behind the position
  have short : pieces.drop (i + 1) ≠ [] → k < p.scalars.length := by
    intro more
    have bounded : i + 1 < pieces.length := by
      by_contra last
      exact more (List.drop_eq_nil_iff.mpr (Nat.le_of_not_lt last))
    have ⟨q, rest, cons⟩ := List.exists_cons_of_ne_nil more
    have behind : (layout 0 pieces)[i + 1]? =
        some (q.run ((text (pieces.take i)).length + p.scalars.length)) := by
      have here := getElem?_layout 0 (pieces.take i ++ [p]) q rest
      rw [List.append_assoc, List.singleton_append, ← cons, ← split, List.length_append,
        List.length_singleton, position, text_append, text_cons, text_nil, List.append_nil,
        List.length_append, Nat.zero_add] at here
      exact here
    have failed := next (by omega)
    rw [decide_eq_false_iff_not, startVisAt, behind] at failed
    have beyond : ¬ (text (pieces.take i)).length + p.scalars.length ≤ v := failed
    omega
  have fits : k ≤ p.scalars.length := by
    by_cases more : pieces.drop (i + 1) = []
    · rw [more, text_nil, List.length_nil] at whole
      omega
    · exact Nat.le_of_lt (short more)
  refine ⟨pieces.take i, p, pieces.drop (i + 1), k, split, sum, fits, short, ?_⟩
  have known : layout 0 pieces ≠ [] := List.length_pos_iff.mp (by omega)
  have located : ¬ (v < (p.run (text (pieces.take i)).length).startVis ∨
      (p.run (text (pieces.take i)).length).startVis +
        (p.run (text (pieces.take i)).length).scalarLen < v) := by
    show ¬ (v < (text (pieces.take i)).length ∨
      (text (pieces.take i)).length + p.scalars.length < v)
    omega
  rw [findRunForVis, if_neg known]
  show (match (layout 0 pieces)[i]? with
    | none => none
    | some run => if v < run.startVis ∨ run.startVis + run.scalarLen < v then none
        else some (run, i)) = _
  rw [found, position]
  exact if_neg located

end RenderIndex

end ConfluenceEditor
