/-
Spans of a line that is cut into parts.

A part has a length and may be marked; `lay` puts the parts one behind the other. The searches at a
position (`endingAt`, `startingAt`, `markedBefore`, `markedAfter`, `lastBelow`) do not depend on the unit in
which the line is measured: a strictly monotone change of the unit commutes with each of them.
-/

import Mathlib.Algebra.GroupWithZero.Nat
import Mathlib.Data.List.Find
import Mathlib.Order.Monotone.Basic
import Mathlib.Order.Interval.Set.Defs

/-- The places from `start` up to `stop`. -/
structure Span where
  start : Nat
  stop : Nat
  marked : Bool
  deriving DecidableEq, Repr

namespace Span

/-- The span in another unit. -/
def map (unit : Nat → Nat) (s : Span) : Span := ⟨unit s.start, unit s.stop, s.marked⟩

end Span

namespace Spans

/-- The spans of parts with these lengths and marks. -/
def lay : Nat → List (Nat × Bool) → List Span
  | _, [] => []
  | start, (length, marked) :: parts =>
      ⟨start, start + length, marked⟩ :: lay (start + length) parts

def endingAt (spans : List Span) (k : Nat) : Option Span := spans.find? fun s => s.stop == k

def startingAt (spans : List Span) (k : Nat) : Option Span := spans.find? fun s => s.start == k

/-- Where the last marked span that ends by `k` starts; without one, the last span does. -/
def markedBefore (spans : List Span) (k : Nat) : Option Nat :=
  let here := spans.filter fun s => s.stop ≤ k
  ((here.reverse.find? Span.marked).or here.getLast?).map Span.start

/-- Where the first marked span from `k` on stops; without one, the last span does. -/
def markedAfter (spans : List Span) (k : Nat) : Option Nat :=
  let here := spans.filter fun s => k ≤ s.start
  ((here.find? Span.marked).or here.getLast?).map Span.stop

/-! ### What is found -/

theorem mem_of_or {l l' : List Span} (reordered : ∀ s ∈ l', s ∈ l) {s : Span}
    (found : (l'.find? Span.marked).or l.getLast? = some s) : s ∈ l := by
  rcases Option.or_eq_some_iff.mp found with marked | ⟨_, last⟩
  · exact reordered s (List.mem_of_find?_eq_some marked)
  · exact List.mem_of_getLast? last

theorem markedBefore_spec {spans : List Span} {k a : Nat} (found : markedBefore spans k = some a) :
    ∃ s ∈ spans, s.stop ≤ k ∧ s.start = a := by
  have ⟨s, here, start⟩ := Option.map_eq_some_iff.mp found
  have ⟨member, before⟩ := List.mem_filter.mp (mem_of_or (fun s member => List.mem_reverse.mp member) here)
  exact ⟨s, member, of_decide_eq_true before, start⟩

theorem markedAfter_spec {spans : List Span} {k b : Nat} (found : markedAfter spans k = some b) :
    ∃ s ∈ spans, k ≤ s.start ∧ s.stop = b := by
  have ⟨s, here, stop⟩ := Option.map_eq_some_iff.mp found
  have ⟨member, after⟩ := List.mem_filter.mp (mem_of_or (fun s member => member) here)
  exact ⟨s, member, of_decide_eq_true after, stop⟩

/-! ### The ends of the line -/

section Ends

variable {spans : List Span}

/-- Nothing ends at the start of the line. -/
theorem endingAt_zero (proper : ∀ s ∈ spans, s.start < s.stop) : endingAt spans 0 = none :=
  List.find?_eq_none.mpr fun s member => by
    rw [beq_iff_eq]
    exact (Nat.zero_lt_of_lt (proper s member)).ne'

theorem markedBefore_zero (proper : ∀ s ∈ spans, s.start < s.stop) : markedBefore spans 0 = none := by
  rw [markedBefore, List.filter_eq_nil_iff.mpr fun s member => ?_]
  · rfl
  · rw [decide_eq_true_eq]
    exact Nat.not_le.mpr (Nat.zero_lt_of_lt (proper s member))

/-- Nothing starts where the line ends, or behind it. -/
theorem startingAt_end {n k : Nat} (proper : ∀ s ∈ spans, s.start < s.stop ∧ s.stop ≤ n) (ends : n ≤ k) :
    startingAt spans k = none :=
  List.find?_eq_none.mpr fun s member => by
    have ⟨less, most⟩ := proper s member
    rw [beq_iff_eq]
    omega

theorem markedAfter_end {n k : Nat} (proper : ∀ s ∈ spans, s.start < s.stop ∧ s.stop ≤ n)
    (ends : n ≤ k) : markedAfter spans k = none := by
  rw [markedAfter, List.filter_eq_nil_iff.mpr fun s member => ?_]
  · rfl
  · have ⟨less, most⟩ := proper s member
    rw [decide_eq_true_eq]
    omega

end Ends

/-! ### Places -/

theorem mem_lay {start : Nat} {parts : List (Nat × Bool)} {s : Span} (member : s ∈ lay start parts) :
    start ≤ s.start ∧ s.start ≤ s.stop ∧ s.stop ≤ start + (parts.map Prod.fst).sum := by
  induction parts generalizing start with
  | nil => cases member
  | cons part parts ih =>
      rw [List.map_cons, List.sum_cons]
      rcases List.mem_cons.mp member with same | later
      · rw [same]
        refine ⟨Nat.le_refl _, Nat.le_add_right _ _, ?_⟩
        show start + part.1 ≤ start + (part.1 + (parts.map Prod.fst).sum)
        omega
      · obtain ⟨front, order, behind⟩ := ih later
        omega

/-- A span of a part that is not empty has a place. -/
theorem lt_of_mem_lay {start : Nat} {parts : List (Nat × Bool)} (positive : ∀ p ∈ parts, 0 < p.1)
    {s : Span} (member : s ∈ lay start parts) : s.start < s.stop := by
  induction parts generalizing start with
  | nil => cases member
  | cons part parts ih =>
      have ⟨here, more⟩ := List.forall_mem_cons.mp positive
      rcases List.mem_cons.mp member with same | later
      · rw [same]
        exact Nat.lt_add_of_pos_right here
      · exact ih more later

/-! ### Changes of the unit -/

section Unit

variable {unit : Nat → Nat} {n k : Nat} {spans : List Span}

/-- The spans are on the line from `0` to `n`. -/
def Within (n : Nat) (spans : List Span) : Prop := ∀ s ∈ spans, s.start ≤ n ∧ s.stop ≤ n

theorem endingAt_map (increasing : StrictMonoOn unit (Set.Iic n)) (within : Within n spans)
    (inside : k ≤ n) :
    endingAt (spans.map (Span.map unit)) (unit k) = (endingAt spans k).map (Span.map unit) := by
  rw [endingAt, List.find?_map, endingAt]
  congr 1
  refine List.find?_congr fun s member => ?_
  show (unit s.stop == unit k) = (s.stop == k)
  rw [Bool.eq_iff_iff, beq_iff_eq, beq_iff_eq]
  exact increasing.eq_iff_eq (within s member).2 inside

theorem startingAt_map (increasing : StrictMonoOn unit (Set.Iic n)) (within : Within n spans)
    (inside : k ≤ n) :
    startingAt (spans.map (Span.map unit)) (unit k) = (startingAt spans k).map (Span.map unit) := by
  rw [startingAt, List.find?_map, startingAt]
  congr 1
  refine List.find?_congr fun s member => ?_
  show (unit s.start == unit k) = (s.start == k)
  rw [Bool.eq_iff_iff, beq_iff_eq, beq_iff_eq]
  exact increasing.eq_iff_eq (within s member).1 inside

theorem markedBefore_map (increasing : StrictMonoOn unit (Set.Iic n)) (within : Within n spans)
    (inside : k ≤ n) :
    markedBefore (spans.map (Span.map unit)) (unit k) = (markedBefore spans k).map unit := by
  have same : (spans.map (Span.map unit)).filter (fun s => s.stop ≤ unit k) =
      (spans.filter fun s => s.stop ≤ k).map (Span.map unit) := by
    rw [List.filter_map]
    congr 1
    refine List.filter_congr fun s member => ?_
    exact decide_eq_decide.mpr (increasing.le_iff_le (within s member).2 inside)
  simp only [markedBefore, same, ← List.map_reverse, List.find?_map, List.getLast?_map,
    ← Option.map_or, Option.map_map]
  rfl

theorem markedAfter_map (increasing : StrictMonoOn unit (Set.Iic n)) (within : Within n spans)
    (inside : k ≤ n) :
    markedAfter (spans.map (Span.map unit)) (unit k) = (markedAfter spans k).map unit := by
  have same : (spans.map (Span.map unit)).filter (fun s => unit k ≤ s.start) =
      (spans.filter fun s => k ≤ s.start).map (Span.map unit) := by
    rw [List.filter_map]
    congr 1
    refine List.filter_congr fun s member => ?_
    exact decide_eq_decide.mpr (increasing.le_iff_le inside (within s member).1)
  simp only [markedAfter, same, List.find?_map, List.getLast?_map, ← Option.map_or, Option.map_map]
  rfl

end Unit

/-! ### The last occurrence -/

section Last

variable {α : Type} [DecidableEq α]

/-- The last place in front of `m` with `x`. -/
def lastBelow (l : List α) (x : α) : Nat → Option Nat
  | 0 => none
  | m + 1 => if l[m]? = some x then some m else lastBelow l x m

theorem lastBelow_spec {l : List α} {x : α} {m i : Nat} (found : lastBelow l x m = some i) :
    i < m ∧ l[i]? = some x := by
  induction m with
  | zero => cases found
  | succ m ih =>
      rw [lastBelow] at found
      by_cases here : l[m]? = some x
      · rw [if_pos here] at found
        cases found
        exact ⟨Nat.lt_succ_self _, here⟩
      · rw [if_neg here] at found
        have ⟨less, there⟩ := ih found
        exact ⟨Nat.lt_succ_of_lt less, there⟩

/-- Places without `x` are passed over. -/
theorem lastBelow_skip {l : List α} {x : α} {m : Nat} (d : Nat)
    (absent : ∀ i, m ≤ i → i < m + d → l[i]? ≠ some x) : lastBelow l x (m + d) = lastBelow l x m := by
  induction d with
  | zero => rfl
  | succ d ih =>
      rw [← Nat.add_assoc, lastBelow, if_neg (absent (m + d) (Nat.le_add_right m d) (by omega))]
      exact ih fun i least most => absent i least (by omega)

end Last

end Spans
