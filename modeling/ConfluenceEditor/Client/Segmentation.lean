/-
Boundaries of clusters, words and lines.

The definitions follow the source: they search a string for a place that is given in code units. The
segmenter of the browser is a parameter; it divides every well-formed string into well-formed segments
(`Segmenter.divides`). On a text of scalars each search is the same search over the places of the scalars
(`clusterBefore_eq` and the lemmas behind it).
-/

import ConfluenceEditor.Binding.Laid
import ConfluenceEditor.Library.Spans

namespace ConfluenceEditor

open UnicodeOffsets

/-- `Intl.SegmentData`, with its index in code units. -/
structure SegmentData where
  segment : List Nat
  index : Nat
  isWordLike : Bool
  deriving DecidableEq, Repr

inductive Granularity where
  | grapheme
  | word
  deriving DecidableEq, Repr

/-- The segments lie one behind the other from `start` on, and are the whole string. -/
def Divides : Nat → List SegmentData → List Nat → Prop
  | _, [], text => text = []
  | start, s :: segments, text => s.index = start ∧ s.segment ≠ [] ∧ WellFormed s.segment ∧
      ∃ rest, text = s.segment ++ rest ∧ Divides (start + s.segment.length) segments rest

/-- `Intl.Segmenter`. -/
structure Segmenter where
  segment : Granularity → List Nat → List SegmentData
  divides : ∀ granularity text, WellFormed text → Divides 0 (segment granularity text) text

/-- One resolved span, in code units. -/
structure TextSpan where
  utf16Start : Nat
  utf16End : Nat
  text : List Nat
  deriving DecidableEq, Repr

namespace SegmentData

def stop (s : SegmentData) : Nat := s.index + s.segment.length

def textSpan (s : SegmentData) : TextSpan := ⟨s.index, s.stop, s.segment⟩

/-- The span of the segment, marked when it is like a word. -/
def span (s : SegmentData) : Span := ⟨s.index, s.stop, s.isWordLike⟩

end SegmentData

namespace Segmenter

variable (segmenter : Segmenter)

def clusterBefore (text : List Nat) (utf16Offset : Nat) : Option TextSpan :=
  if utf16Offset ≤ 0 then none
  else ((segmenter.segment .grapheme text).find? fun seg => seg.stop == utf16Offset).map
    SegmentData.textSpan

def clusterAfter (text : List Nat) (utf16Offset : Nat) : Option TextSpan :=
  if text.length ≤ utf16Offset then none
  else ((segmenter.segment .grapheme text).find? fun seg => seg.index == utf16Offset).map
    SegmentData.textSpan

def wordBefore (text : List Nat) (utf16Offset : Nat) : Option TextSpan :=
  if utf16Offset ≤ 0 then none
  else
    let segs := (segmenter.segment .word text).filter fun s => s.stop ≤ utf16Offset
    -- from the last segment back to one that is like a word
    ((segs.reverse.find? SegmentData.isWordLike).or segs.getLast?).map fun seg =>
      ⟨seg.index, utf16Offset, (text.take utf16Offset).drop seg.index⟩

def wordAfter (text : List Nat) (utf16Offset : Nat) : Option TextSpan :=
  if text.length ≤ utf16Offset then none
  else
    let segs := (segmenter.segment .word text).filter fun s => utf16Offset ≤ s.index
    ((segs.find? SegmentData.isWordLike).or segs.getLast?).map fun last =>
      ⟨utf16Offset, last.stop, (text.take last.stop).drop utf16Offset⟩

end Segmenter

/-- The unit of `\n`. -/
def newline : Nat := 10

/-- `text.lastIndexOf(unit, fromIndex)`: an index in front of the string is its start. -/
def lastIndexOf (text : List Nat) (unit : Nat) (fromIndex : Int) : Option Nat :=
  Spans.lastBelow text unit (fromIndex.toNat + 1)

def lineStartBefore (text : List Nat) (utf16Offset : Nat) : Nat :=
  match lastIndexOf text newline (utf16Offset - 1) with
  | none => 0
  | some nl => nl + 1

/-! ### Places of scalars -/

/-- How many code units are in front of a scalar. -/
def unitsBefore (t : List Nat) (k : Nat) : Nat := (Utf16.encode (t.take k)).length

section Units

variable {t : List Nat} {k : Nat}

theorem unitsBefore_append (done rest : List Nat) :
    unitsBefore (done ++ rest) done.length = (Utf16.encode done).length := by
  rw [unitsBefore, List.take_left' rfl]

theorem unitsBefore_succ {v : Nat} (here : t[k]? = some v) :
    unitsBefore t (k + 1) = unitsBefore t k + (Utf16.units v).length := by
  rw [unitsBefore, List.take_add_one, here, Utf16.encode_append, List.length_append, unitsBefore]
  congr 1
  rw [Option.toList_some, Utf16.encode_cons, Utf16.encode_nil, List.append_nil]

theorem unitsBefore_strictMono (t : List Nat) : StrictMonoOn (unitsBefore t) (Set.Iic t.length) := by
  intro a _ b inside less
  have more : t.take b = t.take a ++ (t.take b).drop a := by
    conv_lhs => rw [← List.take_append_drop a (t.take b), List.take_take, Nat.min_eq_left less.le]
  have longer : 0 < (Utf16.encode ((t.take b).drop a)).length := by
    cases rest : (t.take b).drop a with
    | nil =>
        have none := congrArg List.length rest
        rw [List.length_drop, List.length_take_of_le inside, List.length_nil] at none
        omega
    | cons v rest =>
        rw [Utf16.encode_cons, List.length_append]
        exact Nat.add_pos_left (Utf16.length_units_pos v) _
  show (Utf16.encode (t.take a)).length < (Utf16.encode (t.take b)).length
  rw [more, Utf16.encode_append, List.length_append]
  exact Nat.lt_add_of_pos_right longer

/-- The conversions of a place of a scalar. -/
theorem scalarToUtf16_unitsBefore (scalar : ∀ v ∈ t, v.isValidChar) (inside : k ≤ t.length) :
    scalarToUtf16 (Utf16.encode t) k = .ok (unitsBefore t k) :=
  scalarToUtf16_iff.mpr ⟨k, by rwa [Utf16.codePoints_encode scalar], rfl, by
    rw [Utf16.codePoints_encode scalar, unitsBefore]⟩

theorem utf16ToScalar_unitsBefore (scalar : ∀ v ∈ t, v.isValidChar) (inside : k ≤ t.length) :
    utf16ToScalar (Utf16.encode t) (unitsBefore t k) = .ok k :=
  (scalarToUtf16_iff_utf16ToScalar _ _ _).mp (scalarToUtf16_unitsBefore scalar inside)

end Units

/-! ### Segments as spans of scalars -/

namespace Segmenter

variable (segmenter : Segmenter)

/-- The spans of the segments, in scalars. -/
def spans (granularity : Granularity) (t : List Nat) : List Span :=
  Spans.lay 0 ((segmenter.segment granularity (Utf16.encode t)).map fun s =>
    ((Utf16.codePoints s.segment).length, s.isWordLike))

end Segmenter

/-- Segments of the rest of a text are spans of scalars. -/
theorem Divides.spans_eq {segments : List SegmentData} (done rest : List Nat)
    (scalar : ∀ v ∈ rest, v.isValidChar)
    (divides : Divides (Utf16.encode done).length segments (Utf16.encode rest)) :
    segments.map SegmentData.span =
        (Spans.lay done.length (segments.map fun s =>
          ((Utf16.codePoints s.segment).length, s.isWordLike))).map
            (Span.map (unitsBefore (done ++ rest))) ∧
      (∀ s ∈ segments, 0 < (Utf16.codePoints s.segment).length) ∧
      done.length + ((segments.map fun s => (Utf16.codePoints s.segment).length).sum) =
        (done ++ rest).length := by
  induction segments generalizing done rest with
  | nil =>
      have nothing : Utf16.encode rest = [] := divides
      have empty : rest = [] := by
        rw [← Utf16.codePoints_encode scalar, nothing, Utf16.codePoints_nil]
      refine ⟨rfl, List.forall_mem_nil _, ?_⟩
      rw [empty, List.append_nil]
      rfl
  | cons s segments ih =>
      have ⟨index, nonempty, wellFormed, tail, whole, more⟩ := divides
      set part := Utf16.codePoints s.segment with hpart
      have spelled : Utf16.encode part = s.segment := wellFormed.encode
      have small : ∀ u ∈ tail, u < 0x10000 := fun u member =>
        encode_lt (fun v inside => le_of_isValidChar (scalar v inside)) u (by
          rw [whole]
          exact List.mem_append_right _ member)
      have split : rest = part ++ Utf16.codePoints tail := by
        rw [← Utf16.codePoints_encode scalar, whole, ← spelled,
          Utf16.codePoints_encode_append wellFormed.2]
      have later : Utf16.encode (Utf16.codePoints tail) = tail := Utf16.encode_codePoints small
      have rest' : done ++ rest = (done ++ part) ++ Utf16.codePoints tail := by
        rw [split, List.append_assoc]
      have length : (done ++ part).length = done.length + part.length := List.length_append
      have units : (Utf16.encode (done ++ part)).length =
          (Utf16.encode done).length + s.segment.length := by
        rw [Utf16.encode_append, List.length_append, spelled]
      have ⟨spans, positive, sum⟩ := ih (done ++ part) (Utf16.codePoints tail)
        (fun v member => scalar v (by
          rw [split]
          exact List.mem_append_right _ member)) (by
          rw [units, later]
          exact more)
      rw [← rest'] at spans sum
      have first : s.span =
          Span.map (unitsBefore (done ++ rest)) ⟨done.length, done.length + part.length, s.isWordLike⟩ := by
        have start : unitsBefore (done ++ rest) done.length = (Utf16.encode done).length :=
          unitsBefore_append done rest
        have stop : unitsBefore (done ++ rest) (done.length + part.length) =
            (Utf16.encode done).length + s.segment.length := by
          rw [rest', ← length, unitsBefore_append, units]
        show (⟨s.index, s.index + s.segment.length, s.isWordLike⟩ : Span) = ⟨_, _, s.isWordLike⟩
        rw [start, stop, index]
      refine ⟨?_, ?_, ?_⟩
      · rw [List.map_cons, first, spans, length]
        rfl
      · refine List.forall_mem_cons.mpr ⟨?_, positive⟩
        rw [← hpart]
        refine List.length_pos_iff.mpr fun empty => nonempty ?_
        rw [← spelled, empty]
        rfl
      · rw [List.map_cons, List.sum_cons, ← hpart, ← Nat.add_assoc, ← length]
        exact sum

section Searches

variable {segmenter : Segmenter} {t : List Nat} {k : Nat}

theorem spans_eq (segmenter : Segmenter) (scalar : ∀ v ∈ t, v.isValidChar)
    (granularity : Granularity) :
    (segmenter.segment granularity (Utf16.encode t)).map SegmentData.span =
        (segmenter.spans granularity t).map (Span.map (unitsBefore t)) ∧
      ∀ s ∈ segmenter.spans granularity t, s.start < s.stop ∧ s.stop ≤ t.length := by
  obtain ⟨same, positive, sum⟩ := Divides.spans_eq [] t scalar
    (segmenter.divides granularity _ (wellFormed_encode scalar))
  refine ⟨same, fun s member => ⟨?_, ?_⟩⟩
  · refine Spans.lt_of_mem_lay (fun p inside => ?_) member
    obtain ⟨seg, here, own⟩ := List.mem_map.mp inside
    rw [← own]
    exact positive seg here
  · obtain ⟨_, _, most⟩ := Spans.mem_lay member
    rw [List.map_map] at most
    exact most.trans_eq sum

theorem spans_within (segmenter : Segmenter) (scalar : ∀ v ∈ t, v.isValidChar)
    (granularity : Granularity) :
    Spans.Within t.length (segmenter.spans granularity t) := fun s member => by
  have ⟨less, most⟩ := (spans_eq segmenter scalar granularity).2 s member
  exact ⟨less.le.trans most, most⟩

/-- The ends of a span, in code units. -/
def TextSpan.ends (span : TextSpan) : Nat × Nat := (span.utf16Start, span.utf16End)

theorem unitsBefore_pos (inside : k ≤ t.length) : unitsBefore t k ≤ 0 ↔ k = 0 := by
  have zero : unitsBefore t 0 = 0 := rfl
  have order := (unitsBefore_strictMono t).le_iff_le (a := k) (b := 0) inside (Nat.zero_le _)
  rw [zero] at order
  exact order.trans Nat.le_zero

theorem unitsBefore_full (inside : k ≤ t.length) :
    (Utf16.encode t).length ≤ unitsBefore t k ↔ t.length ≤ k := by
  have whole : unitsBefore t t.length = (Utf16.encode t).length := by
    rw [unitsBefore, List.take_length]
  have order := (unitsBefore_strictMono t).le_iff_le (a := t.length) (b := k)
    (Nat.le_refl _ : t.length ≤ t.length) inside
  rwa [whole] at order

theorem clusterBefore_eq (scalar : ∀ v ∈ t, v.isValidChar) (inside : k ≤ t.length) :
    (segmenter.clusterBefore (Utf16.encode t) (unitsBefore t k)).map TextSpan.ends =
      (Spans.endingAt (segmenter.spans .grapheme t) k).map fun s =>
        (unitsBefore t s.start, unitsBefore t s.stop) := by
  have ⟨same, places⟩ := spans_eq segmenter scalar .grapheme
  have found := Spans.endingAt_map (unitsBefore_strictMono t)
    (spans_within segmenter scalar .grapheme) inside
  rw [← same, Spans.endingAt, List.find?_map] at found
  have ends := congrArg (Option.map fun s : Span => (s.start, s.stop)) found
  rw [Option.map_map, Option.map_map] at ends
  rw [Segmenter.clusterBefore]
  by_cases first : k = 0
  · rw [if_pos ((unitsBefore_pos inside).mpr first), first,
      Spans.endingAt_zero fun s member => (places s member).1]
    rfl
  · rw [if_neg (mt (unitsBefore_pos inside).mp first), Option.map_map]
    exact ends

theorem clusterAfter_eq (scalar : ∀ v ∈ t, v.isValidChar) (inside : k ≤ t.length) :
    (segmenter.clusterAfter (Utf16.encode t) (unitsBefore t k)).map TextSpan.ends =
      (Spans.startingAt (segmenter.spans .grapheme t) k).map fun s =>
        (unitsBefore t s.start, unitsBefore t s.stop) := by
  have ⟨same, places⟩ := spans_eq segmenter scalar .grapheme
  have found := Spans.startingAt_map (unitsBefore_strictMono t)
    (spans_within segmenter scalar .grapheme) inside
  rw [← same, Spans.startingAt, List.find?_map] at found
  have ends := congrArg (Option.map fun s : Span => (s.start, s.stop)) found
  rw [Option.map_map, Option.map_map] at ends
  rw [Segmenter.clusterAfter]
  by_cases last : t.length ≤ k
  · rw [if_pos ((unitsBefore_full inside).mpr last), Spans.startingAt_end places last]
    rfl
  · rw [if_neg (mt (unitsBefore_full inside).mp last), Option.map_map]
    exact ends

theorem wordBefore_eq (scalar : ∀ v ∈ t, v.isValidChar) (inside : k ≤ t.length) :
    (segmenter.wordBefore (Utf16.encode t) (unitsBefore t k)).map TextSpan.ends =
      (Spans.markedBefore (segmenter.spans .word t) k).map fun start =>
        (unitsBefore t start, unitsBefore t k) := by
  have ⟨same, places⟩ := spans_eq segmenter scalar .word
  have found := Spans.markedBefore_map (unitsBefore_strictMono t)
    (spans_within segmenter scalar .word) inside
  rw [Segmenter.wordBefore]
  by_cases first : k = 0
  · rw [if_pos ((unitsBefore_pos inside).mpr first), first,
      Spans.markedBefore_zero fun s member => (places s member).1]
    rfl
  · rw [if_neg (mt (unitsBefore_pos inside).mp first)]
    have start : ((((segmenter.segment .word (Utf16.encode t)).filter
        fun s => s.stop ≤ unitsBefore t k).reverse.find? SegmentData.isWordLike).or
          ((segmenter.segment .word (Utf16.encode t)).filter
            fun s => s.stop ≤ unitsBefore t k).getLast?).map SegmentData.index =
        (Spans.markedBefore (segmenter.spans .word t) k).map (unitsBefore t) := by
      rw [← found, ← same]
      simp only [Spans.markedBefore, List.filter_map, ← List.map_reverse, List.find?_map,
        List.getLast?_map, ← Option.map_or, Option.map_map]
      rfl
    have ends := congrArg (Option.map fun u => (u, unitsBefore t k)) start
    rw [Option.map_map, Option.map_map] at ends
    rw [Option.map_map]
    exact ends

theorem wordAfter_eq (scalar : ∀ v ∈ t, v.isValidChar) (inside : k ≤ t.length) :
    (segmenter.wordAfter (Utf16.encode t) (unitsBefore t k)).map TextSpan.ends =
      (Spans.markedAfter (segmenter.spans .word t) k).map fun stop =>
        (unitsBefore t k, unitsBefore t stop) := by
  have ⟨same, places⟩ := spans_eq segmenter scalar .word
  have found := Spans.markedAfter_map (unitsBefore_strictMono t)
    (spans_within segmenter scalar .word) inside
  rw [Segmenter.wordAfter]
  by_cases last : t.length ≤ k
  · rw [if_pos ((unitsBefore_full inside).mpr last), Spans.markedAfter_end places last]
    rfl
  · rw [if_neg (mt (unitsBefore_full inside).mp last)]
    have stop : ((((segmenter.segment .word (Utf16.encode t)).filter
        fun s => unitsBefore t k ≤ s.index).find? SegmentData.isWordLike).or
          ((segmenter.segment .word (Utf16.encode t)).filter
            fun s => unitsBefore t k ≤ s.index).getLast?).map SegmentData.stop =
        (Spans.markedAfter (segmenter.spans .word t) k).map (unitsBefore t) := by
      rw [← found, ← same]
      simp only [Spans.markedAfter, List.filter_map, List.find?_map, List.getLast?_map,
        ← Option.map_or, Option.map_map]
      rfl
    have ends := congrArg (Option.map fun u => (unitsBefore t k, u)) stop
    rw [Option.map_map, Option.map_map] at ends
    rw [Option.map_map]
    exact ends

end Searches

/-! ### Lines -/

/-- Where the line of a place starts: behind the last line break in front of it. -/
def lineStart (t : List Nat) (k : Nat) : Nat :=
  match Spans.lastBelow t newline k with
  | none => 0
  | some i => i + 1

theorem lineStart_le (t : List Nat) (k : Nat) : lineStart t k ≤ k := by
  rw [lineStart]
  cases found : Spans.lastBelow t newline k with
  | none => exact Nat.zero_le k
  | some i => exact (Spans.lastBelow_spec found).1

section Lines

variable {t : List Nat} {k : Nat}

theorem getElem?_encode {v : Nat} (here : t[k]? = some v) (i : Nat) (inside : i < (Utf16.units v).length) :
    (Utf16.encode t)[unitsBefore t k + i]? = (Utf16.units v)[i]? := by
  have split : t = t.take k ++ v :: t.drop (k + 1) := by
    have ⟨less, value⟩ := List.getElem?_eq_some_iff.mp here
    rw [← value, List.getElem_cons_drop, List.take_append_drop]
  conv_lhs => rw [split, Utf16.encode_append, Utf16.encode_cons]
  rw [← split, unitsBefore, List.getElem?_append_right (Nat.le_add_right _ _), Nat.add_sub_cancel_left,
    List.getElem?_append_left inside]

/-- A unit below the surrogates is found where its scalar is. -/
theorem lastBelow_encode {x : Nat} (single : x < 0xd800) (inside : k ≤ t.length) :
    Spans.lastBelow (Utf16.encode t) x (unitsBefore t k) =
      (Spans.lastBelow t x k).map (unitsBefore t) := by
  induction k with
  | zero => rfl
  | succ k ih =>
      have here : t[k]? = some t[k] := List.getElem?_eq_getElem inside
      rw [unitsBefore_succ here]
      by_cases same : t[k] = x
      · have units : Utf16.units t[k] = [x] := by
          rw [same, Utf16.units_of_lt (by omega)]
        have found : (Utf16.encode t)[unitsBefore t k]? = some x := by
          have first := getElem?_encode here 0 (Utf16.length_units_pos _)
          rw [units] at first
          exact first
        rw [units, Spans.lastBelow, here, same, if_pos rfl]
        show Spans.lastBelow _ x (unitsBefore t k + 1) = _
        rw [Spans.lastBelow, if_pos found]
        rfl
      · rw [Spans.lastBelow_skip _ fun i least most => ?_, ih (Nat.le_of_succ_le inside),
          Spans.lastBelow, here, if_neg fun found => same (Option.some.inj found)]
        obtain ⟨d, rfl⟩ := Nat.exists_eq_add_of_le least
        rw [getElem?_encode here d (by omega)]
        intro found
        have member := List.mem_of_getElem? found
        by_cases small : t[k] < 0x10000
        · rw [Utf16.units_of_lt small] at member
          exact same (List.mem_singleton.mp member).symm
        · rw [Utf16.units_of_le (Nat.not_lt.mp small)] at member
          rcases List.mem_cons.mp member with high | low
          · omega
          · have low := List.mem_singleton.mp low
            omega

/-- The start of the line in code units. In front of the whole document the search still looks at its
first unit, and may name a place behind the caret. -/
theorem lineStartBefore_eq (inside : k ≤ t.length) :
    ∃ start ≤ t.length, lineStartBefore (Utf16.encode t) (unitsBefore t k) = unitsBefore t start ∧
      k - start = k - lineStart t k ∧ (0 < k → start = lineStart t k) := by
  have units : Utf16.units newline = [newline] := rfl
  by_cases first : k = 0
  · have place : lineStartBefore (Utf16.encode t) (unitsBefore t 0) =
        if (Utf16.encode t)[0]? = some newline then 1 else 0 := by
      have zero : unitsBefore t 0 = 0 := rfl
      have index : (((0 : Nat) : Int) - 1).toNat + 1 = 1 := rfl
      rw [lineStartBefore, lastIndexOf, zero, index, Spans.lastBelow, Spans.lastBelow]
      by_cases found : (Utf16.encode t)[0]? = some newline
      · rw [if_pos found, if_pos found]
      · rw [if_neg found, if_neg found]
    rw [first, place]
    by_cases found : (Utf16.encode t)[0]? = some newline
    · cases t with
      | nil => cases found
      | cons v t =>
          have here : (v :: t)[0]? = some v := rfl
          have unit := getElem?_encode here 0 (Utf16.length_units_pos v)
          have same : v = newline := by
            by_cases small : v < 0x10000
            · rw [Utf16.units_of_lt small] at unit
              exact Option.some.inj (unit.symm.trans found)
            · rw [Utf16.units_of_le (Nat.not_lt.mp small)] at unit
              have high : 0xd800 + (v - 0x10000) / 0x400 = 10 :=
                Option.some.inj (unit.symm.trans found)
              omega
          refine ⟨1, Nat.succ_le_succ (Nat.zero_le _), ?_, by omega, fun behind => by omega⟩
          rw [if_pos found, unitsBefore_succ here, same, units]
          rfl
    · refine ⟨0, Nat.zero_le _, ?_, by omega, fun behind => by omega⟩
      rw [if_neg found]
      rfl
  · have least : 0 < unitsBefore t k := Nat.pos_of_ne_zero fun none =>
      first ((unitsBefore_pos inside).mp none.le)
    have index : ((unitsBefore t k : Int) - 1).toNat + 1 = unitsBefore t k := by omega
    have found := lastBelow_encode (x := newline) (by decide) inside
    refine ⟨lineStart t k, (lineStart_le t k).trans inside, ?_, rfl, fun _ => rfl⟩
    rw [lineStartBefore, lastIndexOf, index, found, lineStart]
    cases last : Spans.lastBelow t newline k with
    | none => rfl
    | some i =>
        rw [unitsBefore_succ (Spans.lastBelow_spec last).2, units]
        rfl

end Lines

/-! ### Scalars as segments -/

/-- Every scalar is a segment. -/
def perScalar : Nat → List Nat → List SegmentData
  | _, [] => []
  | start, v :: text =>
      ⟨Utf16.units v, start, true⟩ :: perScalar (start + (Utf16.units v).length) text

theorem divides_perScalar {t : List Nat} (scalar : ∀ v ∈ t, v.isValidChar) (start : Nat) :
    Divides start (perScalar start t) (Utf16.encode t) := by
  induction t generalizing start with
  | nil => rfl
  | cons v t ih =>
      have ⟨valid, rest⟩ := List.forall_mem_cons.mp scalar
      have alone : Utf16.encode [v] = Utf16.units v := List.append_nil _
      have nonempty : Utf16.units v ≠ [] := fun none => by
        have positive := Utf16.length_units_pos v
        rw [none] at positive
        exact Nat.lt_irrefl 0 positive
      have wellFormed : WellFormed (Utf16.units v) :=
        alone ▸ wellFormed_encode (List.forall_mem_singleton.mpr valid)
      exact ⟨rfl, nonempty, wellFormed, Utf16.encode t, rfl, ih rest _⟩

/-- A segmenter that finds neither clusters nor words. -/
def scalarSegmenter : Segmenter where
  segment _ text := perScalar 0 (Utf16.codePoints text)
  divides _ text wellFormed := by
    have divided := divides_perScalar wellFormed.2 0
    rwa [wellFormed.encode] at divided

end ConfluenceEditor
