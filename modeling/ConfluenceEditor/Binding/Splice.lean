/-
The writer splices a text.

A mount, an insertion and a deletion are splices of a list of scalars (`WriterCall.apply`). Each round
of a deletion takes at least one scalar (`Laid.deleteRound`), so that it ends after at most as many
rounds as there are scalars to delete. `domWriter_splices` is about every sequence of calls.
-/

import ConfluenceEditor.Binding.Laid
import ConfluenceEditor.Library.Run
import Mathlib.Data.List.Forall2

namespace ConfluenceEditor

open UnicodeOffsets RenderIndex

/-- What a call does to the text; there is none before the first mount. -/
def WriterCall.apply (doc : Option (List Nat)) : WriterCall → Option (List Nat)
  | .mount initialText => some (Utf16.codePoints initialText)
  | .insertText visOffset text _ =>
      doc.map (Pieces.splice visOffset.toNat 0 (Utf16.codePoints text))
  | .deleteRange visOffset count _ => doc.map (Pieces.splice visOffset.toNat count.toNat [])

/-- The call is within the text, and its oracle is right. -/
def WriterCall.InRange (doc : Option (List Nat)) : WriterCall → Prop
  | .mount initialText => WellFormed initialText
  | .insertText visOffset text expectedText => WellFormed text ∧ ∃ t, doc = some t ∧
      0 ≤ visOffset ∧ visOffset ≤ t.length ∧ ∀ x ∈ expectedText,
        x = Utf16.encode (Pieces.splice visOffset.toNat 0 (Utf16.codePoints text) t)
  | .deleteRange visOffset count expectedText => ∃ t, doc = some t ∧
      0 ≤ visOffset ∧ 0 ≤ count ∧ visOffset + count ≤ t.length ∧ ∀ x ∈ expectedText,
        x = Utf16.encode (Pieces.splice visOffset.toNat count.toNat [] t)

/-- Every call is within the text of its time. -/
def AllInRange : Option (List Nat) → List WriterCall → Prop
  | _, [] => True
  | doc, call :: calls => call.InRange doc ∧ AllInRange (call.apply doc) calls

/-- How many scalars a call deletes. -/
def WriterCall.deletes : WriterCall → Nat
  | .deleteRange _ count _ => count.toNat
  | _ => 0

namespace DomWriter

/-- The text of the writer, in bounded pieces. -/
def Shows (w : DomWriter) : Option (List Nat) → Prop
  | none => w.root = none ∧ w.runs = []
  | some t => ∃ pieces, w.Laid pieces ∧ Bounded pieces ∧ text pieces = t

/-- The method returns, and shows that text. -/
def Comes (w : DomWriter) (method : Method DomWriter) (doc : Option (List Nat)) : Prop :=
  ∃ w' : DomWriter, method = .ok w' ∧ w'.Shows doc ∧ w'.assertionsEnabled = w.assertionsEnabled

variable {w : DomWriter} {pieces before after : List Piece} {p : Piece}

/-- The assertion is the last step of a method. -/
theorem asserted {expected : Option (List Nat)} (checked : w.assertConsistent expected = .ok ()) :
    (do w.assertConsistent expected; .ok w) = (.ok w : Method DomWriter) := by
  rw [checked]
  rfl

/-! ### Insertions -/

/-- A text in an empty root. -/
theorem Laid.appendRunsForText (laid : w.Laid []) {t : List Nat}
    (scalar : ∀ v ∈ t, v.isValidChar) :
    ∃ pieces, (w.appendRunsForText (Utf16.encode t) 0).Laid pieces ∧ Bounded pieces ∧
      text pieces = t ∧
      (w.appendRunsForText (Utf16.encode t) 0).assertionsEnabled = w.assertionsEnabled := by
  set chunks := Pieces.cut RUN_MAX_SCALARS RUN_MAX_SCALARS_pos t with hchunks
  have whole : chunks.flatten = t := Pieces.flatten_cut t
  have appended : w.appendRunsForText (Utf16.encode t) 0 = { w with
      root := some ((number w.nextNode chunks).map Piece.node)
      runs := layout 0 (number w.nextNode chunks)
      nextNode := w.nextNode + chunks.length } := by
    rw [DomWriter.appendRunsForText, chunksOf_encode scalar, appendChunks_eq, laid.runs, laid.root]
    rfl
  refine ⟨number w.nextNode chunks, ?_, bounded_number, ?_, by rw [appended]⟩
  · rw [appended]
    refine ⟨rfl, rfl, nodup_number _ _, ?_, ?_⟩
    · intro p member
      exact (mem_number member).2.2
    · intro p member v inside
      refine scalar v ?_
      rw [← whole]
      exact List.mem_flatten_of_mem (mem_number member).1 inside
  · rw [text_number]
    exact whole

/-- An empty text has no runs. -/
theorem started_eq (w : DomWriter) (initialText : List Nat) :
    (if 0 < initialText.length then w.appendRunsForText initialText 0 else w) =
      w.appendRunsForText initialText 0 := by
  by_cases some : 0 < initialText.length
  · exact if_pos some
  · have none : initialText = [] := List.length_eq_zero_iff.mp (Nat.eq_zero_of_not_pos some)
    have nothing : chunksOf [] = [] := by
      rw [chunksOf, characters, Utf16.codePoints_nil, List.map_nil, Pieces.cut_nil]
    rw [if_neg some, none, DomWriter.appendRunsForText, nothing]
    rfl

theorem mount_comes (w : DomWriter) {initialText : List Nat} (wellFormed : WellFormed initialText) :
    w.Comes (w.mount initialText) (some (Utf16.codePoints initialText)) := by
  set t := Utf16.codePoints initialText with ht
  have encoded : Utf16.encode t = initialText := wellFormed.encode
  set cleared : DomWriter := { w with root := some [], runs := [] } with hcleared
  have empty : cleared.Laid [] := by
    refine ⟨rfl, rfl, List.nodup_nil, ?_, ?_⟩
    · intro p member
      cases member
    · intro p member
      cases member
  have ⟨pieces, laid, bounded, whole, flag⟩ := empty.appendRunsForText wellFormed.2
  rw [← ht] at laid whole flag
  rw [encoded] at laid flag
  have started := started_eq cleared initialText
  refine ⟨cleared.appendRunsForText initialText 0, ?_, ⟨pieces, laid, bounded, whole⟩, flag⟩
  have checked : (cleared.appendRunsForText initialText 0).assertConsistent none = .ok () :=
    laid.assertConsistent fun x absent => by cases absent
  rw [← started] at checked ⊢
  exact asserted checked

theorem map_shift (start scalars : Nat) (pieces : List Piece) :
    (layout start pieces).map (shift scalars) = layout (start + scalars) pieces := by
  induction pieces generalizing start with
  | nil => rfl
  | cons p pieces ih =>
      rw [layout, List.map_cons, ih, layout, Nat.add_right_comm]
      rfl

theorem Bounded.splice (bounded : Bounded (before ++ p :: after)) {parts : List Piece}
    (middle : Bounded parts) : Bounded (before ++ (parts ++ after)) := by
  intro q member
  rcases List.mem_append.mp member with here | behind
  · exact bounded q (List.mem_append_left _ here)
  · rcases List.mem_append.mp behind with new | later
    · exact middle q new
    · exact bounded q (List.mem_append_right _ (List.mem_cons_of_mem p later))

/-- The run that a splice meets, its offset, and the string that the source writes. -/
theorem text_splice {k d : Nat} (inside : k + d ≤ p.scalars.length) (inserted : List Nat) :
    text (before ++ ⟨p.node, Pieces.splice k d inserted p.scalars⟩ :: after) =
      Pieces.splice ((text before).length + k) d inserted (text (before ++ p :: after)) := by
  rw [text, List.map_append, List.map_cons, Pieces.flatten_splice inside inserted, text, text,
    List.map_append, List.map_cons]

theorem encode_splice (t : List Nat) (k d : Nat) (inserted : List Nat) :
    (Utf16.encode t).take (Utf16.encode (t.take k)).length ++ Utf16.encode inserted ++
        (Utf16.encode t).drop (Utf16.encode (t.take (k + d))).length =
      Utf16.encode (Pieces.splice k d inserted t) := by
  rw [take_encode, drop_encode, Pieces.splice, Utf16.encode_append, Utf16.encode_append]

theorem scalar_splice {t inserted : List Nat} (scalar : ∀ v ∈ t, v.isValidChar)
    (new : ∀ v ∈ inserted, v.isValidChar) (k d : Nat) :
    ∀ v ∈ Pieces.splice k d inserted t, v.isValidChar := by
  intro v member
  rcases List.mem_append.mp member with front | behind
  · rcases List.mem_append.mp front with before | here
    · exact scalar v (List.mem_of_mem_take before)
    · exact new v here
  · exact scalar v (List.mem_of_mem_drop behind)

/-- An insertion into one run, which may become oversized. -/
theorem Laid.insertRun (laid : w.Laid (before ++ p :: after))
    (bounded : Bounded (before ++ p :: after)) {k : Nat} (inside : k ≤ p.scalars.length)
    {t : List Nat} (scalar : ∀ v ∈ t, v.isValidChar) {q : Piece}
    (new : q = ⟨p.node, Pieces.splice k 0 t p.scalars⟩) {w₁ w₂ : DomWriter}
    (index : w₁ = { w with runs := w.runs.take before.length ++ q.run (text before).length ::
      (w.runs.drop (before.length + 1)).map (shift t.length) })
    (limited : w₂ = if RUN_MAX_SCALARS < q.scalars.length then w₁.splitOversizedRun before.length
      else w₁) :
    ∃ pieces, w₂.Laid pieces ∧ Bounded pieces ∧ text pieces =
      Pieces.splice ((text before).length + k) 0 t (text (before ++ p :: after)) ∧
        w₂.assertionsEnabled = w.assertionsEnabled := by
  have old : ∀ v ∈ p.scalars, v.isValidChar :=
    laid.scalar p (List.mem_append_right before List.mem_cons_self)
  have length : q.scalars.length = p.scalars.length + t.length := by
    rw [new]
    exact Pieces.length_splice_zero inside t
  have written := laid.rewritten (scalar_splice old scalar k 0)
  have same : w₁ = { w with runs := layout 0 (before ++ q :: after) } := by
    rw [index, laid.runs, take_layout, drop_layout, map_shift, layout_append 0 before, layout,
      length, Nat.zero_add, Nat.add_assoc]
  rw [← new, ← same] at written
  have nonempty : q.scalars ≠ [] := by
    have here := List.length_pos_iff.mpr
      (bounded p (List.mem_append_right before List.mem_cons_self)).1
    exact List.length_pos_iff.mp (by omega)
  obtain ⟨parts, divided, whole, small, flag⟩ := written.splitOversizedRun nonempty
  have reached : w₂ = w₁.splitOversizedRun before.length := by
    by_cases oversized : RUN_MAX_SCALARS < q.scalars.length
    · rw [limited, if_pos oversized]
    · rw [limited, if_neg oversized, written.splitOversizedRun_of_le (Nat.le_of_not_lt oversized)]
  rw [← reached] at divided flag
  refine ⟨before ++ (parts ++ after), divided, bounded.splice small, ?_, ?_⟩
  · rw [← text_splice inside t, ← new, text_append, text_append, whole, text_append, text_cons]
  · rw [flag, index]

theorem insertText_comes {doc : List Nat} (shown : w.Shows (some doc)) {visOffset : Int}
    {s : List Nat} {expectedText : Option (List Nat)}
    (inRange : (WriterCall.insertText visOffset s expectedText).InRange (some doc)) :
    w.Comes (w.insertText visOffset s expectedText)
      (some (Pieces.splice visOffset.toNat 0 (Utf16.codePoints s) doc)) := by
  have ⟨pieces, laid, bounded, whole⟩ := shown
  have ⟨wellFormed, doc', same, least, most, oracle⟩ := inRange
  have ⟨v, offset⟩ := Int.eq_ofNat_of_zero_le least
  rw [← Option.some.inj same, ← whole] at oracle most
  rw [← whole]
  rw [offset] at oracle most ⊢
  set t := Utf16.codePoints s with ht
  have encoded : Utf16.encode t = s := wellFormed.encode
  have position : ((v : Int)).toNat = v := Int.toNat_natCast v
  rw [position] at oracle ⊢
  have inside : v ≤ (text pieces).length := Int.ofNat_le.mp most
  have mounted : ¬ w.root = none := by
    rw [laid.root]
    exact Option.some_ne_none _
  unfold DomWriter.insertText
  rw [if_neg mounted]
  by_cases nothing : s.length = 0
  · have none : t = [] := by
      rw [ht, List.length_eq_zero_iff.mp nothing, Utf16.codePoints_nil]
    rw [if_pos nothing, none, Pieces.splice_zero]
    exact ⟨w, rfl, ⟨pieces, laid, bounded, rfl⟩, rfl⟩
  · have total : (totalVisibleLength w.runs : Int) = (text pieces).length := by
      rw [laid.runs, totalVisibleLength_layout]
    rw [if_neg nothing, if_neg (by omega)]
    by_cases first : w.runs.length = 0
    · have none : pieces = [] := by
        rw [laid.runs, length_layout] at first
        exact List.length_eq_zero_iff.mp first
      rw [none] at laid inside oracle ⊢
      have zero : v = 0 := Nat.le_zero.mp inside
      have start : Pieces.splice v 0 t (text []) = t := by
        rw [zero]
        exact List.append_nil t
      rw [start] at oracle ⊢
      have ⟨pieces', laid', bounded', whole', flag⟩ := laid.appendRunsForText wellFormed.2
      rw [← ht, encoded] at laid' flag
      rw [← ht] at whole'
      have checked := laid'.assertConsistent (whole'.symm ▸ oracle)
      refine ⟨w.appendRunsForText s 0, ?_, ⟨pieces', laid', bounded', whole'⟩, flag⟩
      rw [if_pos first]
      exact asserted checked
    · have nonempty : pieces ≠ [] := by
        intro none
        rw [laid.runs, none] at first
        exact first rfl
      have ⟨before, p, after, k, split, sum, fits, short, found⟩ :=
        findRunForVis_layout nonempty inside
      rw [← laid.runs] at found
      rw [split] at laid bounded oracle ⊢
      have old : ∀ u ∈ p.scalars, u.isValidChar :=
        laid.scalar p (List.mem_append_right before List.mem_cons_self)
      have behind : (v : Int) - (p.run (text before).length).startVis = (k : Int) := by
        show (v : Int) - ((text before).length : Int) = k
        omega
      have data : (p.run (text before).length).textNode.data = Utf16.encode p.scalars := rfl
      have length : (characters s).length = t.length := by
        rw [← encoded, length_characters_encode wellFormed.2]
      set q : Piece := ⟨p.node, Pieces.splice k 0 t p.scalars⟩ with hq
      have spliced : (Utf16.encode p.scalars).take (Utf16.encode (p.scalars.take k)).length ++ s ++
          (Utf16.encode p.scalars).drop (Utf16.encode (p.scalars.take k)).length =
            Utf16.encode q.scalars := by
        rw [← encoded]
        exact encode_splice p.scalars k 0 t
      have grown : (p.run (text before).length).scalarLen + t.length = q.scalars.length :=
        (Pieces.length_splice_zero fits t).symm
      have ⟨pieces', laid', bounded', whole', flag⟩ := laid.insertRun bounded fits wellFormed.2 hq
        rfl rfl
      rw [← sum] at whole'
      have checked := laid'.assertConsistent (whole'.symm ▸ oracle)
      refine ⟨_, ?_, ⟨pieces', laid', bounded', whole'⟩, flag⟩
      rw [if_neg first, position, found]
      dsimp only
      rw [behind, data, offsetIn_encode old fits]
      dsimp only [bind, Except.bind]
      rw [spliced, length, grown]
      exact asserted checked

/-! ### Deletions -/

/-- A run is that of a piece, up to its position. -/
def Holds (run : RenderRun) (p : Piece) : Prop := run = p.run run.startVis

theorem holds_layout (start : Nat) (pieces : List Piece) :
    List.Forall₂ Holds (layout start pieces) pieces := by
  induction pieces generalizing start with
  | nil => exact .nil
  | cons p pieces ih => exact .cons rfl (ih _)

theorem renumber_eq {runs : List RenderRun} (vis : Nat) (held : List.Forall₂ Holds runs pieces) :
    renumber vis runs = layout vis pieces := by
  induction held generalizing vis with
  | nil => rfl
  | cons own _ ih =>
      rename_i run p runs pieces _
      have length : run.scalarLen = p.scalars.length := by rw [own]; rfl
      have moved : ({ run with startVis := vis } : RenderRun) = p.run vis := by rw [own]; rfl
      rw [renumber, layout, ih, moved, length]

theorem Laid.dropped (laid : w.Laid (before ++ p :: after)) :
    Laid { w with
      root := w.root.map (·.erase p.node)
      runs := layout 0 (before ++ after) } (before ++ after) := by
  have less : (before ++ after).Sublist (before ++ p :: after) :=
    (List.Sublist.refl before).append (List.sublist_cons_self p after)
  refine ⟨rfl, ?_, laid.nodes.sublist (less.map Piece.node), ?_, ?_⟩
  · show w.root.map (·.erase p.node) = _
    rw [laid.root, Option.map_some, map_node, List.erase_append_right _ laid.notMem_before,
      List.erase_cons_head, List.map_append]
  · intro q member
    exact laid.fresh q (less.subset member)
  · intro q member
    exact laid.scalar q (less.subset member)

/-- One round takes at least one scalar, all from one run. -/
theorem Laid.deleteRound (laid : w.Laid pieces) (bounded : Bounded pieces) {v remaining : Nat}
    (more : 0 < remaining) (inside : v + remaining ≤ (text pieces).length) :
    ∃ d w' pieces', 0 < d ∧ d ≤ remaining ∧
      w.deleteRound v remaining = .ok (remaining - d, w') ∧ w'.Laid pieces' ∧ Bounded pieces' ∧
      text pieces' = Pieces.splice v d [] (text pieces) ∧
      w'.assertionsEnabled = w.assertionsEnabled := by
  have nonempty : pieces ≠ [] := by
    intro none
    rw [none, text_nil, List.length_nil] at inside
    omega
  have ⟨before, p, after, k, split, sum, fits, short, found⟩ :=
    findRunForVis_layout nonempty (Nat.le_trans (Nat.le_add_right v remaining) inside)
  rw [← laid.runs] at found
  rw [split] at laid bounded inside ⊢
  have old : ∀ u ∈ p.scalars, u.isValidChar :=
    laid.scalar p (List.mem_append_right before List.mem_cons_self)
  have within : k < p.scalars.length := by
    by_cases last : after = []
    · rw [last, text_append, text_cons, text_nil, List.append_nil, List.length_append] at inside
      omega
    · exact short last
  set d := min (p.scalars.length - k) remaining with hd
  have fewer : k + d ≤ p.scalars.length := by omega
  have behind : (v : Int) - (p.run (text before).length).startVis = (k : Int) := by
    show (v : Int) - ((text before).length : Int) = k
    omega
  have beyond : (k : Int) + (d : Int) = ((k + d : Nat) : Int) := (Int.natCast_add k d).symm
  have data : (p.run (text before).length).textNode.data = Utf16.encode p.scalars := rfl
  set q : Piece := ⟨p.node, Pieces.splice k d [] p.scalars⟩ with hq
  have length : q.scalars.length + d = p.scalars.length := Pieces.length_splice fewer
  have spliced : (Utf16.encode p.scalars).take (Utf16.encode (p.scalars.take k)).length ++
      (Utf16.encode p.scalars).drop (Utf16.encode (p.scalars.take (k + d))).length =
        Utf16.encode q.scalars := by
    have written := encode_splice p.scalars k d []
    rwa [Utf16.encode_nil, List.append_nil] at written
  have nothing : ∀ v ∈ ([] : List Nat), v.isValidChar := fun _ member => by cases member
  have rewritten := laid.rewritten (scalar_splice old nothing k d)
  rw [← hq] at rewritten
  have whole : text (before ++ q :: after) = Pieces.splice v d [] (text (before ++ p :: after)) := by
    rw [hq, text_splice fewer [], sum]
  have taken : min ((p.run (text before).length).scalarLen - ((k : Int)).toNat) remaining = d := rfl
  have left : (p.run (text before).length).scalarLen - d = q.scalars.length := by
    show p.scalars.length - d = q.scalars.length
    omega
  unfold DomWriter.deleteRound
  rw [found]
  dsimp only
  rw [behind, taken, beyond, data, offsetIn_encode old fits, offsetIn_encode old fewer]
  dsimp only [bind, Except.bind]
  rw [spliced, left]
  by_cases vanishes : q.scalars.length = 0
  · have held : List.Forall₂ Holds (w.runs.eraseIdx before.length) (before ++ after) := by
      rw [laid.runs, List.eraseIdx_eq_take_drop_succ, take_layout, drop_layout]
      exact List.rel_append (holds_layout _ before) (holds_layout _ after)
    have empty : Bounded [] := fun r member => by cases member
    have fits' : Bounded (before ++ after) := bounded.splice empty
    rw [if_pos vanishes, DomWriter.renumberStartVis, renumber_eq 0 held]
    refine ⟨d, _, before ++ after, by omega, by omega, rfl, laid.dropped, fits', ?_, rfl⟩
    rw [← whole, text_append, text_append, text_cons, List.length_eq_zero_iff.mp vanishes,
      List.nil_append]
  · have held : List.Forall₂ Holds (w.runs.set before.length (q.run (text before).length))
        (before ++ q :: after) := by
      have position : before.length < (layout 0 (before ++ p :: after)).length := by
        rw [length_layout, List.length_append, List.length_cons]
        omega
      rw [laid.runs, List.set_eq_take_append_cons_drop, if_pos position, take_layout, drop_layout]
      exact List.rel_append (holds_layout _ before) (.cons rfl (holds_layout _ after))
    have one : Bounded [q] := fun r member => by
      have ⟨_, most⟩ := bounded p (List.mem_append_right before List.mem_cons_self)
      rw [List.mem_singleton.mp member]
      exact ⟨fun empty => vanishes (congrArg List.length empty), by omega⟩
    have fits' : Bounded (before ++ q :: after) := bounded.splice one
    rw [if_neg vanishes, DomWriter.renumberStartVis]
    have renumbered : renumber 0 (w.runs.set before.length (q.run (text before).length)) = _ :=
      renumber_eq 0 held
    refine ⟨d, _, before ++ q :: after, by omega, by omega,
      congrArg (fun runs => Except.ok (remaining - d, DomWriter.mk w.root runs _ _)) renumbered,
      rewritten, fits', whole, rfl⟩

/-- The loop ends in as many rounds as there are scalars to delete, or fewer. -/
theorem Laid.deleteLoop (laid : w.Laid pieces) (bounded : Bounded pieces) {v remaining rounds : Nat}
    (enough : remaining ≤ rounds) (inside : v + remaining ≤ (text pieces).length) :
    ∃ w' pieces', DomWriter.deleteLoop v rounds remaining w = .ok w' ∧ w'.Laid pieces' ∧
      Bounded pieces' ∧ text pieces' = Pieces.splice v remaining [] (text pieces) ∧
      w'.assertionsEnabled = w.assertionsEnabled := by
  induction rounds generalizing w pieces remaining with
  | zero =>
      rw [Nat.le_zero.mp enough, Pieces.splice_zero]
      exact ⟨w, pieces, by rw [DomWriter.deleteLoop], laid, bounded, rfl, rfl⟩
  | succ rounds ih =>
      cases remaining with
      | zero =>
          rw [Pieces.splice_zero]
          exact ⟨w, pieces, by rw [DomWriter.deleteLoop], laid, bounded, rfl, rfl⟩
      | succ remaining =>
          have ⟨d, w', pieces', least, most, round, laid', bounded', whole, flag⟩ :=
            laid.deleteRound bounded (Nat.succ_pos remaining) inside
          have reached : v + d ≤ (text pieces).length := by omega
          have length := Pieces.length_splice reached
          rw [← whole] at length
          have ⟨w'', pieces'', looped, laid'', bounded'', whole', flag'⟩ :=
            @ih w' pieces' laid' bounded' (remaining + 1 - d) (by omega) (by omega)
          refine ⟨w'', pieces'', ?_, laid'', bounded'', ?_, flag'.trans flag⟩
          · rw [DomWriter.deleteLoop, round]
            exact looped
          · rw [whole', whole, Pieces.splice_splice (by omega)]
            congr 1
            omega

theorem deleteRange_comes {doc : List Nat} (shown : w.Shows (some doc)) {visOffset count : Int}
    {expectedText : Option (List Nat)}
    (inRange : (WriterCall.deleteRange visOffset count expectedText).InRange (some doc))
    {rounds : Nat} (enough : count.toNat ≤ rounds) :
    w.Comes (deleteRange rounds w visOffset count expectedText)
      (some (Pieces.splice visOffset.toNat count.toNat [] doc)) := by
  have ⟨pieces, laid, bounded, whole⟩ := shown
  have ⟨doc', same, least, positive, most, oracle⟩ := inRange
  rw [← Option.some.inj same, ← whole] at oracle most
  rw [← whole]
  have mounted : ¬ w.root = none := by
    rw [laid.root]
    exact Option.some_ne_none _
  rw [deleteRange, if_neg mounted]
  by_cases nothing : count ≤ 0
  · rw [if_pos nothing, Int.toNat_of_nonpos nothing, Pieces.splice_zero]
    exact ⟨w, rfl, ⟨pieces, laid, bounded, rfl⟩, rfl⟩
  · have total : (totalVisibleLength w.runs : Int) = (text pieces).length := by
      rw [laid.runs, totalVisibleLength_layout]
    have ⟨w', pieces', looped, laid', bounded', whole', flag⟩ :=
      laid.deleteLoop (v := visOffset.toNat) bounded enough (by omega)
    have checked := laid'.assertConsistent (whole'.symm ▸ oracle)
    refine ⟨w', ?_, ⟨pieces', laid', bounded', whole'⟩, flag⟩
    rw [if_neg nothing, if_neg (by omega), looped]
    exact asserted checked

/-! ### Sequences of calls -/

theorem perform_comes {doc : Option (List Nat)} (shown : w.Shows doc) {call : WriterCall}
    (inRange : call.InRange doc) {rounds : Nat} (enough : call.deletes ≤ rounds) :
    w.Comes (perform rounds w call) (call.apply doc) := by
  cases call with
  | mount initialText => exact mount_comes w inRange
  | insertText visOffset s expectedText =>
      cases doc with
      | none =>
          have ⟨_, _, absent, _⟩ := inRange
          cases absent
      | some t => exact insertText_comes shown inRange
  | deleteRange visOffset count expectedText =>
      cases doc with
      | none =>
          have ⟨_, absent, _⟩ := inRange
          cases absent
      | some t => exact deleteRange_comes shown inRange enough

theorem run_shows {doc : Option (List Nat)} (shown : w.Shows doc) {calls : List WriterCall}
    (inRange : AllInRange doc calls) {rounds : Nat}
    (enough : ∀ call ∈ calls, call.deletes ≤ rounds) :
    w.Comes (Run.run (perform rounds) w calls) (calls.foldl WriterCall.apply doc) := by
  induction calls generalizing w doc with
  | nil => exact ⟨w, rfl, shown, rfl⟩
  | cons call calls ih =>
      have ⟨first, rest⟩ := inRange
      have ⟨few, later⟩ := List.forall_mem_cons.mp enough
      have ⟨w₁, moved, shown₁, flag₁⟩ := perform_comes shown first few
      have ⟨w', ran, shown', flag'⟩ := ih shown₁ rest later
      refine ⟨w', ?_, shown', flag'.trans flag₁⟩
      rw [Run.run, moved]
      exact ran

/-- The index is that of the text nodes, and the text nodes are the children of the root. -/
structure Rendered (w : DomWriter) : Prop where
  contiguous : ∀ {before run after}, w.runs = before ++ run :: after →
    run.startVis = (before.map RenderRun.scalarLen).sum
  bounded : ∀ run ∈ w.runs, 0 < run.scalarLen ∧ run.scalarLen ≤ RUN_MAX_SCALARS
  lengths : ∀ run ∈ w.runs, run.scalarLen = (characters run.textNode.data).length ∧
    run.utf16Len = run.textNode.data.length
  wellFormed : ∀ run ∈ w.runs, WellFormed run.textNode.data
  children : ∀ nodes ∈ w.root, nodes = w.runs.map (·.textNode.id) ∧ nodes.Nodup
  unmounted : w.root = none → w.runs = []

theorem Laid.rendered (laid : w.Laid pieces) (bounded : Bounded pieces) : w.Rendered := by
  have piece : ∀ run ∈ w.runs, ∃ p ∈ pieces, run = p.run run.startVis := by
    rw [laid.runs]
    exact fun run member => mem_layout member
  refine ⟨?_, ?_, ?_, ?_, ?_, ?_⟩
  · intro before run after split
    rw [laid.runs] at split
    rw [startVis_layout split, Nat.zero_add]
  · intro run member
    obtain ⟨p, inside, own⟩ := piece run member
    obtain ⟨nonempty, most⟩ := bounded p inside
    rw [own]
    exact ⟨List.length_pos_iff.mpr nonempty, most⟩
  · intro run member
    obtain ⟨p, inside, own⟩ := piece run member
    rw [own]
    exact ⟨(length_characters_encode (laid.scalar p inside)).symm, rfl⟩
  · intro run member
    obtain ⟨p, inside, own⟩ := piece run member
    rw [own]
    exact wellFormed_encode (laid.scalar p inside)
  · intro nodes here
    have same : pieces.map Piece.node = nodes := Option.some.inj (laid.root.symm.trans here)
    rw [laid.runs, map_id_layout, ← same]
    exact ⟨rfl, laid.nodes⟩
  · intro none
    rw [laid.root] at none
    cases none

theorem Shows.rendered {doc : Option (List Nat)} (shown : w.Shows doc) :
    w.materializedText = Utf16.encode (doc.getD []) ∧ w.Rendered := by
  cases doc with
  | none =>
      obtain ⟨root, runs⟩ := shown
      have nothing : ∀ run, run ∉ w.runs := by
        rw [runs]
        exact fun run => List.not_mem_nil
      refine ⟨by rw [materializedText, runs]; rfl, ?_, ?_, ?_, ?_, ?_, fun _ => runs⟩
      · intro before run after split
        rw [runs] at split
        exact absurd split.symm (List.append_ne_nil_of_right_ne_nil _ (List.cons_ne_nil _ _))
      · exact fun run member => absurd member (nothing run)
      · exact fun run member => absurd member (nothing run)
      · exact fun run member => absurd member (nothing run)
      · intro nodes here
        rw [root] at here
        cases here
  | some t =>
      obtain ⟨pieces, laid, bounded, whole⟩ := shown
      exact ⟨by rw [laid.materializedText, whole]; rfl, laid.rendered bounded⟩

/-- The writer refines the splices, whatever the calls are and whether or not it checks itself. -/
theorem domWriter_splices (assertionsEnabled : Bool) {calls : List WriterCall}
    (inRange : AllInRange none calls) {rounds : Nat}
    (enough : ∀ call ∈ calls, call.deletes ≤ rounds) :
    ∃ w, Run.run (perform rounds) (DomWriter.new assertionsEnabled) calls = .ok w ∧
      w.materializedText = Utf16.encode ((calls.foldl WriterCall.apply none).getD []) ∧
      w.Rendered ∧ w.assertionsEnabled = assertionsEnabled := by
  have started : (DomWriter.new assertionsEnabled).Shows none := ⟨rfl, rfl⟩
  have ⟨w, ran, shown, flag⟩ := run_shows started inRange enough
  have ⟨whole, rendered⟩ := shown.rendered
  exact ⟨w, ran, whole, rendered, flag⟩

/-- A letter in front of an astral character, an insertion between them, and a deletion of both
letters. -/
theorem domWriter_splices_astral :
    ∃ w, Run.run (perform 2) (DomWriter.new true) [.mount (Utf16.encode [97, 0x1f600]),
        .insertText 1 (Utf16.encode [98]) (some (Utf16.encode [97, 98, 0x1f600])),
        .deleteRange 0 2 (some (Utf16.encode [0x1f600]))] = .ok w ∧
      w.materializedText = Utf16.encode [0x1f600] ∧ w.Rendered ∧ w.assertionsEnabled = true := by
  have mounted : ∀ v ∈ [97, 0x1f600], v.isValidChar := by decide
  have letter : ∀ v ∈ [98], v.isValidChar := by decide
  have first := Utf16.codePoints_encode mounted
  have second := Utf16.codePoints_encode letter
  have ran := @domWriter_splices true [.mount (Utf16.encode [97, 0x1f600]),
    .insertText 1 (Utf16.encode [98]) (some (Utf16.encode [97, 98, 0x1f600])),
    .deleteRange 0 2 (some (Utf16.encode [0x1f600]))]
    ⟨wellFormed_encode mounted,
      ⟨wellFormed_encode letter, [97, 0x1f600], congrArg some first, by decide, by decide, by
        intro x same
        rw [← Option.some.inj same, second]
        rfl⟩,
      ⟨[97, 98, 0x1f600], by
        rw [WriterCall.apply, WriterCall.apply, first, second]
        rfl, by decide, by decide, by decide, by
        intro x same
        rw [← Option.some.inj same]
        rfl⟩, trivial⟩ 2 (by decide)
  have spliced : [WriterCall.mount (Utf16.encode [97, 0x1f600]),
      .insertText 1 (Utf16.encode [98]) (some (Utf16.encode [97, 98, 0x1f600])),
      .deleteRange 0 2 (some (Utf16.encode [0x1f600]))].foldl WriterCall.apply none =
        some [0x1f600] := by
    rw [List.foldl_cons, List.foldl_cons, List.foldl_cons, List.foldl_nil, WriterCall.apply,
      WriterCall.apply, WriterCall.apply, first, second]
    rfl
  rw [spliced] at ran
  exact ran

end DomWriter

end ConfluenceEditor
