/-
What a mount shows.

A mount puts any string into the root, surrogates without a partner included: the text is cut between
its code points, so that every run iterates to its own part (`decodes_cut`) and the assertion holds. The
caret can then be placed wherever the string has that many characters (`mount_places`).
-/

import ConfluenceEditor.Binding.PositionMapping

namespace ConfluenceEditor

open UnicodeOffsets RenderIndex PositionMapping

namespace DomWriter

/-- The parts of a string's code points iterate to themselves. -/
theorem decodes_cut {n : Nat} {positive : 0 < n} {string t chunk : List Nat}
    (iterated : Utf16.codePoints string = t) (small : ∀ u ∈ string, u < 0x10000)
    (member : chunk ∈ Pieces.cut n positive t) :
    Utf16.codePoints (Utf16.encode chunk) = chunk := by
  fun_induction Pieces.cut n positive t generalizing string with
  | case1 => cases member
  | case2 t nonempty ih =>
      have split : Utf16.codePoints string = t.take n ++ t.drop n := by
        rw [iterated, List.take_append_drop]
      obtain ⟨first, second, whole, front, behind⟩ := Utf16.codePoints_split split
      rw [whole] at small
      rcases List.mem_cons.mp member with same | later
      · rw [same, ← front, Utf16.encode_codePoints fun u inside =>
          small u (List.mem_append_left second inside)]
      · exact ih behind (fun u inside => small u (List.mem_append_right first inside)) later

theorem mount_places (w : DomWriter) {string : List Nat} (small : ∀ u ∈ string, u < 0x10000) :
    ∃ w', w.mount string = .ok w' ∧ ∀ (root : DomNode) (n : Nat),
      n ≤ (Utf16.codePoints string).length → ∃ position, visToDom w'.runs root n = .ok position := by
  set chunks := Pieces.cut RUN_MAX_SCALARS RUN_MAX_SCALARS_pos (Utf16.codePoints string) with hchunks
  set pieces := number w.nextNode chunks with hpieces
  set cleared : DomWriter := { w with root := some [], runs := [] } with hcleared
  have decodes : ∀ p ∈ pieces, Utf16.codePoints (Utf16.encode p.scalars) = p.scalars :=
    fun p member => decodes_cut rfl small (mem_number member).1
  have cut : chunksOf string = chunks.map (List.map Utf16.units) := by
    rw [chunksOf, characters, Pieces.cut_map]
  have appended : cleared.appendRunsForText string 0 = { cleared with
      root := cleared.root.map (· ++ pieces.map Piece.node)
      runs := layout 0 pieces
      nextNode := w.nextNode + chunks.length } := by
    rw [DomWriter.appendRunsForText, cut, appendChunks_eq]
    rfl
  have started : (if 0 < string.length then cleared.appendRunsForText string 0 else cleared) =
      cleared.appendRunsForText string 0 := started_eq cleared string
  have runs : (cleared.appendRunsForText string 0).runs = layout 0 pieces := by rw [appended]
  refine ⟨cleared.appendRunsForText string 0, ?_, fun root n inside => ?_⟩
  · have checked : (cleared.appendRunsForText string 0).assertConsistent none = .ok () := by
      unfold DomWriter.assertConsistent
      by_cases enabled : (cleared.appendRunsForText string 0).assertionsEnabled = true
      · rw [if_pos enabled, runs]
        exact checkRuns_layout 0 decodes
      · rw [if_neg enabled]
    rw [← started] at checked ⊢
    exact asserted checked
  · have whole : text pieces = Utf16.codePoints string := by
      rw [hpieces, text_number, hchunks, Pieces.flatten_cut]
    rw [← whole] at inside
    rw [runs]
    rcases visToDom_layout decodes root inside with ⟨_, mapped⟩ | ⟨_, _, _, _, _, _, _, mapped⟩
    · exact ⟨_, mapped⟩
    · exact ⟨_, mapped⟩

end DomWriter

end ConfluenceEditor
