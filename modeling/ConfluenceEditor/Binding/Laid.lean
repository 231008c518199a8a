/-
The pieces behind the runs of the writer.

`Laid` says that the runs and the root are those of a text in pieces, so that the assertion holds
(`Laid.assertConsistent`). A change of one run is a change of its piece (`Laid.replaced`); an oversized
piece is cut into bounded ones (`Laid.splitOversizedRun`).
-/

import ConfluenceEditor.Binding.DomWriter

namespace ConfluenceEditor

open UnicodeOffsets RenderIndex

namespace DomWriter

/-- The runs and the children of the root are those of the pieces. -/
structure Laid (w : DomWriter) (pieces : List Piece) : Prop where
  runs : w.runs = layout 0 pieces
  root : w.root = some (pieces.map Piece.node)
  nodes : (pieces.map Piece.node).Nodup
  fresh : ∀ p ∈ pieces, p.node < w.nextNode
  scalar : ∀ p ∈ pieces, ∀ v ∈ p.scalars, v.isValidChar

/-- No piece is empty or oversized. -/
def Bounded (pieces : List Piece) : Prop :=
  ∀ p ∈ pieces, p.scalars ≠ [] ∧ p.scalars.length ≤ RUN_MAX_SCALARS

theorem characters_encode {t : List Nat} (scalar : ∀ v ∈ t, v.isValidChar) :
    characters (Utf16.encode t) = t.map Utf16.units := by
  rw [characters, Utf16.codePoints_encode scalar]

theorem length_characters_encode {t : List Nat} (scalar : ∀ v ∈ t, v.isValidChar) :
    (characters (Utf16.encode t)).length = t.length := by
  rw [characters_encode scalar, List.length_map]

theorem flatten_map_units (t : List Nat) : (t.map Utf16.units).flatten = Utf16.encode t :=
  (List.flatMap_def ..).symm

theorem chunksOf_encode {t : List Nat} (scalar : ∀ v ∈ t, v.isValidChar) :
    chunksOf (Utf16.encode t) =
      (Pieces.cut RUN_MAX_SCALARS RUN_MAX_SCALARS_pos t).map (List.map Utf16.units) := by
  rw [chunksOf, characters_encode scalar, Pieces.cut_map]

/-- A prefix of a text is a prefix of its string. -/
theorem take_encode (t : List Nat) (k : Nat) :
    (Utf16.encode t).take (Utf16.encode (t.take k)).length = Utf16.encode (t.take k) := by
  conv_lhs => rw [← List.take_append_drop k t, Utf16.encode_append]
  rw [List.take_append_drop]
  exact List.take_left' rfl

theorem length_encode_take (t : List Nat) (k : Nat) :
    (Utf16.encode (t.take k)).length ≤ (Utf16.encode t).length := by
  conv_rhs => rw [← List.take_append_drop k t, Utf16.encode_append, List.length_append]
  exact Nat.le_add_right ..

theorem drop_encode (t : List Nat) (k : Nat) :
    (Utf16.encode t).drop (Utf16.encode (t.take k)).length = Utf16.encode (t.drop k) := by
  conv_lhs => rw [← List.take_append_drop k t, Utf16.encode_append]
  rw [List.take_append_drop]
  exact List.drop_left' rfl

/-- The offset of a scalar in the data of its run. -/
theorem offsetIn_encode {t : List Nat} (scalar : ∀ v ∈ t, v.isValidChar) {k : Nat}
    (inside : k ≤ t.length) :
    offsetIn (Utf16.encode t) k = .ok (Utf16.encode (t.take k)).length := by
  have converted : scalarToUtf16 (Utf16.encode t) k = .ok (Utf16.encode (t.take k)).length :=
    scalarToUtf16_iff.mpr ⟨k, by rwa [Utf16.codePoints_encode scalar], rfl, by
      rw [Utf16.codePoints_encode scalar]⟩
  rw [offsetIn, converted]

/-! ### The assertion -/

section Assertion

variable {w : DomWriter} {pieces : List Piece}

theorem flatMap_data (start : Nat) (pieces : List Piece) :
    ((layout start pieces).flatMap fun run => run.textNode.data) = Utf16.encode (text pieces) := by
  induction pieces generalizing start with
  | nil => rfl
  | cons p pieces ih =>
      rw [layout, List.flatMap_cons, ih, text_cons, Utf16.encode_append]
      rfl

theorem Laid.materializedText (laid : w.Laid pieces) :
    w.materializedText = Utf16.encode (text pieces) := by
  rw [DomWriter.materializedText, laid.runs, flatMap_data]

theorem checkRuns_layout (start : Nat)
    (decodes : ∀ p ∈ pieces, Utf16.codePoints (Utf16.encode p.scalars) = p.scalars) :
    checkRuns start (layout start pieces) = .ok () := by
  induction pieces generalizing start with
  | nil => rfl
  | cons p pieces ih =>
      have ⟨here, later⟩ := List.forall_mem_cons.mp decodes
      have begins : (p.run start).startVis = start := rfl
      have units : (p.run start).utf16Len = (p.run start).textNode.data.length := rfl
      have length : (characters (p.run start).textNode.data).length = (p.run start).scalarLen :=
        (List.length_map ..).trans (congrArg List.length here)
      rw [layout, checkRuns, if_neg (not_not.mpr begins), if_neg (not_not.mpr length.symm),
        if_neg (not_not.mpr units)]
      exact ih _ later

/-- The assertion does not fire, also with the right text of an oracle. -/
theorem Laid.assertConsistent (laid : w.Laid pieces) {expected : Option (List Nat)}
    (oracle : ∀ x ∈ expected, x = Utf16.encode (text pieces)) :
    w.assertConsistent expected = .ok () := by
  have checked : checkRuns 0 w.runs = .ok () := by
    rw [laid.runs]
    exact checkRuns_layout 0 fun p member => Utf16.codePoints_encode (laid.scalar p member)
  unfold DomWriter.assertConsistent
  by_cases enabled : w.assertionsEnabled = true
  · rw [if_pos enabled]
    cases expected with
    | none => exact checked
    | some x =>
        show (if _ then _ else _) = _
        rw [if_neg (not_not.mpr (laid.materializedText.trans (oracle x rfl).symm))]
        exact checked
  · rw [if_neg enabled]

end Assertion

/-! ### New runs -/

/-- Pieces for new text nodes. -/
def number : Nat → List (List Nat) → List Piece
  | _, [] => []
  | node, chunk :: chunks => ⟨node, chunk⟩ :: number (node + 1) chunks

theorem text_number (node : Nat) (chunks : List (List Nat)) :
    text (number node chunks) = chunks.flatten := by
  induction chunks generalizing node with
  | nil => rfl
  | cons chunk chunks ih => rw [number, text_cons, ih, List.flatten_cons]

theorem mem_number {node : Nat} {chunks : List (List Nat)} {p : Piece}
    (member : p ∈ number node chunks) :
    p.scalars ∈ chunks ∧ node ≤ p.node ∧ p.node < node + chunks.length := by
  induction chunks generalizing node with
  | nil => cases member
  | cons chunk chunks ih =>
      rw [List.length_cons]
      rcases List.mem_cons.mp member with same | later
      · rw [same]
        exact ⟨List.mem_cons_self, Nat.le_refl node, by
          show node < node + (chunks.length + 1)
          omega⟩
      · have ⟨inside, low, high⟩ := ih later
        exact ⟨List.mem_cons_of_mem _ inside, by omega, by omega⟩

theorem nodup_number (node : Nat) (chunks : List (List Nat)) :
    ((number node chunks).map Piece.node).Nodup := by
  induction chunks generalizing node with
  | nil => exact List.nodup_nil
  | cons chunk chunks ih =>
      refine List.nodup_cons.mpr ⟨fun again => ?_, ih _⟩
      have ⟨p, member, same⟩ := List.mem_map.mp again
      have ⟨_, low, _⟩ := mem_number member
      have own : p.node = node := same
      omega

theorem appendChunks_eq (w : DomWriter) (vis : Nat) (chunks : List (List Nat)) :
    w.appendChunks vis (chunks.map (List.map Utf16.units)) = { w with
      root := w.root.map (· ++ (number w.nextNode chunks).map Piece.node)
      runs := w.runs ++ layout vis (number w.nextNode chunks)
      nextNode := w.nextNode + chunks.length } := by
  induction chunks generalizing w vis with
  | nil =>
      have same : w.root.map (· ++ ([] : List Nat)) = w.root := by
        cases w.root with
        | none => rfl
        | some children => exact congrArg some (List.append_nil children)
      rw [number, layout, List.map_nil, List.map_nil, List.append_nil, same]
      rfl
  | cons chunk chunks ih =>
      rw [List.map_cons, appendChunks, ih, flatten_map_units, List.length_map]
      have children : (w.root.map (· ++ [w.nextNode])).map
          (· ++ (number (w.nextNode + 1) chunks).map Piece.node) =
            w.root.map (· ++ (number w.nextNode (chunk :: chunks)).map Piece.node) := by
        cases w.root with
        | none => rfl
        | some children => exact congrArg some (List.append_assoc ..)
      rw [children]
      show DomWriter.mk _ ((w.runs ++ [_]) ++ _) _ _ = DomWriter.mk _ (w.runs ++ _ :: _) _ _
      rw [List.append_assoc, List.length_cons, Nat.add_assoc, Nat.add_comm 1]
      rfl

/-- The pieces of a new text. -/
theorem bounded_number {node : Nat} {t : List Nat} :
    Bounded (number node (Pieces.cut RUN_MAX_SCALARS RUN_MAX_SCALARS_pos t)) :=
  fun _ member => Pieces.length_of_mem_cut (mem_number member).1

theorem insertBehind_append {A B : List Nat} {refNode : Nat} (absent : refNode ∉ A) (node : Nat) :
    insertBehind refNode node (A ++ refNode :: B) = A ++ refNode :: node :: B := by
  induction A with
  | nil => exact if_pos rfl
  | cons child A ih =>
      have ⟨other, later⟩ := not_or.mp (mt List.mem_cons.mpr absent)
      rw [List.cons_append, insertBehind, if_neg fun same => other same.symm, ih later]
      rfl

/-- The new text nodes stand behind the given one, in the order of the chunks. -/
theorem insertChunks_eq {w : DomWriter} {A B : List Nat} {refNode : Nat}
    (children : w.root = some (A ++ refNode :: B)) (absent : refNode ∉ A)
    (fresh : ∀ n ∈ A ++ refNode :: B, n < w.nextNode) (vis : Nat) {chunks : List (List Nat)}
    (scalar : ∀ chunk ∈ chunks, ∀ v ∈ chunk, v.isValidChar) :
    w.insertChunks refNode vis (chunks.map Utf16.encode) =
      ({ w with
          root := some (A ++ refNode :: ((number w.nextNode chunks).map Piece.node ++ B))
          nextNode := w.nextNode + chunks.length },
        layout vis (number w.nextNode chunks)) := by
  induction chunks generalizing w A refNode vis with
  | nil =>
      rw [number, layout, List.map_nil, List.map_nil, insertChunks, List.nil_append, ← children]
      rfl
  | cons chunk chunks ih =>
      obtain ⟨here, later⟩ := List.forall_mem_cons.mp scalar
      have inserted : (w.root.map (insertBehind refNode w.nextNode)) =
          some ((A ++ [refNode]) ++ w.nextNode :: B) := by
        rw [children, Option.map_some, insertBehind_append absent, List.append_assoc]
        rfl
      have absent' : w.nextNode ∉ A ++ [refNode] := by
        intro again
        have old : w.nextNode ∈ A ++ refNode :: B := by
          rw [List.append_cons]
          exact List.mem_append_left B again
        exact Nat.lt_irrefl _ (fresh _ old)
      have fresh' : ∀ n ∈ (A ++ [refNode]) ++ w.nextNode :: B, n < w.nextNode + 1 := by
        intro n member
        rcases List.mem_append.mp member with before | behind
        · have old := fresh n (by
            rw [List.append_cons]
            exact List.mem_append_left B before)
          omega
        · rcases List.mem_cons.mp behind with same | after
          · omega
          · have old := fresh n (List.mem_append_right A (List.mem_cons_of_mem refNode after))
            omega
      have rest := ih (w := { w with
        root := w.root.map (insertBehind refNode w.nextNode)
        nextNode := w.nextNode + 1 }) inserted absent' fresh'
        (vis + (characters (Utf16.encode chunk)).length) later
      rw [List.map_cons, insertChunks, rest, length_characters_encode here, List.append_assoc,
        List.length_cons]
      show (DomWriter.mk _ _ _ (w.nextNode + 1 + chunks.length), _) =
        (DomWriter.mk _ _ _ (w.nextNode + (chunks.length + 1)), _)
      rw [Nat.add_assoc, Nat.add_comm 1]
      rfl

section Split

variable {w : DomWriter} {before after : List Piece} {p : Piece}

theorem map_encode (chunks : List (List Nat)) :
    (chunks.map (List.map Utf16.units)).map List.flatten = chunks.map Utf16.encode := by
  rw [List.map_map]
  exact List.map_congr_left fun chunk _ => flatten_map_units chunk

theorem map_node (before after : List Piece) (p : Piece) :
    (before ++ p :: after).map Piece.node =
      before.map Piece.node ++ p.node :: after.map Piece.node := by
  rw [List.map_append, List.map_cons]

theorem Laid.lt_nextNode (laid : w.Laid (before ++ p :: after)) :
    ∀ n ∈ before.map Piece.node ++ p.node :: after.map Piece.node, n < w.nextNode := by
  intro n member
  rw [← map_node] at member
  have ⟨q, inside, same⟩ := List.mem_map.mp member
  rw [← same]
  exact laid.fresh q inside

theorem Laid.notMem_before (laid : w.Laid (before ++ p :: after)) :
    p.node ∉ before.map Piece.node := by
  intro again
  have distinct := laid.nodes
  rw [map_node] at distinct
  exact (List.nodup_append.mp distinct).2.2 _ again _ List.mem_cons_self rfl

/-- One piece is written anew, and perhaps continued in new text nodes. -/
theorem Laid.replaced (laid : w.Laid (before ++ p :: after)) {first : List Nat}
    {rest : List (List Nat)} (scalar : ∀ v ∈ first ++ rest.flatten, v.isValidChar) :
    Laid { w with
      root := some ((before ++ ⟨p.node, first⟩ :: (number w.nextNode rest ++ after)).map Piece.node)
      runs := layout 0 (before ++ ⟨p.node, first⟩ :: (number w.nextNode rest ++ after))
      nextNode := w.nextNode + rest.length }
      (before ++ ⟨p.node, first⟩ :: (number w.nextNode rest ++ after)) := by
  have bound := laid.lt_nextNode
  refine ⟨rfl, rfl, ?_, ?_, ?_⟩
  · have moved : ((before ++ ⟨p.node, first⟩ :: (number w.nextNode rest ++ after)).map
        Piece.node).Perm ((number w.nextNode rest).map Piece.node ++
          (before.map Piece.node ++ p.node :: after.map Piece.node)) := by
      rw [map_node, List.map_append, List.append_cons, List.append_cons _ _ (after.map Piece.node)]
      exact List.perm_append_comm_assoc ..
    rw [moved.nodup_iff, List.nodup_append]
    refine ⟨nodup_number w.nextNode rest, map_node before after p ▸ laid.nodes, ?_⟩
    intro a new b old same
    have ⟨q, member, own⟩ := List.mem_map.mp new
    have ⟨_, low, _⟩ := mem_number member
    have high := bound b old
    omega
  · intro q member
    show q.node < w.nextNode + rest.length
    have old : ∀ n, n ∈ before.map Piece.node ++ p.node :: after.map Piece.node →
        n < w.nextNode + rest.length := fun n inside => Nat.lt_add_right _ (bound n inside)
    rcases List.mem_append.mp member with here | behind
    · exact old _ (List.mem_append_left _ (List.mem_map_of_mem here))
    · rcases List.mem_cons.mp behind with same | further
      · rw [same]
        exact old _ (List.mem_append_right _ List.mem_cons_self)
      · rcases List.mem_append.mp further with new | later
        · exact (mem_number new).2.2
        · exact old _ (List.mem_append_right _
            (List.mem_cons_of_mem _ (List.mem_map_of_mem later)))
  · intro q member v inside
    rcases List.mem_append.mp member with here | behind
    · exact laid.scalar q (List.mem_append_left _ here) v inside
    · rcases List.mem_cons.mp behind with same | further
      · rw [same] at inside
        exact scalar v (List.mem_append_left _ inside)
      · rcases List.mem_append.mp further with new | later
        · exact scalar v (List.mem_append_right _
            (List.mem_flatten_of_mem (mem_number new).1 inside))
        · exact laid.scalar q (List.mem_append_right _ (List.mem_cons_of_mem _ later)) v inside

/-- One piece is written anew, without new text nodes. -/
theorem Laid.rewritten (laid : w.Laid (before ++ p :: after)) {t : List Nat}
    (scalar : ∀ v ∈ t, v.isValidChar) :
    Laid { w with runs := layout 0 (before ++ ⟨p.node, t⟩ :: after) }
      (before ++ ⟨p.node, t⟩ :: after) := by
  have scalar' : ∀ v ∈ t ++ ([] : List (List Nat)).flatten, v.isValidChar := by
    rw [List.flatten_nil, List.append_nil]
    exact scalar
  have replaced := laid.replaced scalar'
  have children : w.root = some ((before ++ ⟨p.node, t⟩ :: after).map Piece.node) := by
    rw [laid.root, map_node, map_node]
  rw [children]
  exact replaced

theorem Laid.splitOversizedRun_of_le (laid : w.Laid (before ++ p :: after))
    (small : p.scalars.length ≤ RUN_MAX_SCALARS) : w.splitOversizedRun before.length = w := by
  have found : w.runs[before.length]? = some (p.run (text before).length) := by
    rw [laid.runs, getElem?_layout, Nat.zero_add]
  unfold DomWriter.splitOversizedRun
  rw [found]
  exact if_pos small

/-- The first part of an oversized piece stays where the piece was. -/
theorem Laid.splitOversizedRun (laid : w.Laid (before ++ p :: after)) (nonempty : p.scalars ≠ []) :
    ∃ parts, (w.splitOversizedRun before.length).Laid (before ++ (parts ++ after)) ∧
      text parts = p.scalars ∧ Bounded parts ∧
      (w.splitOversizedRun before.length).assertionsEnabled = w.assertionsEnabled := by
  have scalar : ∀ v ∈ p.scalars, v.isValidChar :=
    laid.scalar p (List.mem_append_right before List.mem_cons_self)
  by_cases small : p.scalars.length ≤ RUN_MAX_SCALARS
  · have unchanged := laid.splitOversizedRun_of_le small
    refine ⟨[p], ?_, by rw [text_cons, text_nil, List.append_nil], ?_, by rw [unchanged]⟩
    · rw [unchanged]
      exact laid
    · intro q member
      rw [List.mem_singleton.mp member]
      exact ⟨nonempty, small⟩
  · set first := p.scalars.take RUN_MAX_SCALARS with hfirst
    set rest := Pieces.cut RUN_MAX_SCALARS RUN_MAX_SCALARS_pos (p.scalars.drop RUN_MAX_SCALARS)
      with hrest
    have cut : Pieces.cut RUN_MAX_SCALARS RUN_MAX_SCALARS_pos p.scalars = first :: rest :=
      Pieces.cut_of_ne_nil nonempty
    have chunks : (chunksOf (Utf16.encode p.scalars)).map List.flatten =
        Utf16.encode first :: rest.map Utf16.encode := by
      rw [chunksOf_encode scalar, map_encode, cut, List.map_cons]
    have whole : first ++ rest.flatten = p.scalars := by
      rw [← List.flatten_cons, ← cut, Pieces.flatten_cut]
    have scalar_first : ∀ v ∈ first, v.isValidChar := fun v member =>
      scalar v (List.mem_of_mem_take member)
    have scalar_rest : ∀ chunk ∈ rest, ∀ v ∈ chunk, v.isValidChar := by
      intro chunk member v inside
      refine scalar v ?_
      rw [← whole]
      exact List.mem_append_right first (List.mem_flatten_of_mem member inside)
    have inserted := insertChunks_eq (laid.root.trans (congrArg some (map_node ..)))
      laid.notMem_before laid.lt_nextNode
      ((text before).length + (characters (Utf16.encode first)).length) scalar_rest
    have divided : w.splitOversizedRun before.length = { w with
        root := some ((before ++ ⟨p.node, first⟩ :: (number w.nextNode rest ++ after)).map
          Piece.node)
        runs := layout 0 (before ++ ⟨p.node, first⟩ :: (number w.nextNode rest ++ after))
        nextNode := w.nextNode + rest.length } := by
      have found : w.runs[before.length]? = some (p.run (text before).length) := by
        rw [laid.runs, getElem?_layout, Nat.zero_add]
      have data : (p.run (text before).length).textNode.data = Utf16.encode p.scalars := rfl
      unfold DomWriter.splitOversizedRun
      rw [found]
      refine (if_neg small).trans ?_
      rw [data, chunks]
      let inserts := w.insertChunks p.node
        ((text before).length + (characters (Utf16.encode first)).length) (rest.map Utf16.encode)
      show ({ inserts.1 with runs := w.runs.take before.length ++
        (⟨⟨p.node, Utf16.encode first⟩, (text before).length,
          (characters (Utf16.encode first)).length, (Utf16.encode first).length⟩ : RenderRun) ::
            inserts.2 ++ w.runs.drop (before.length + 1) } : DomWriter) = _
      have same : inserts = _ := inserted
      have sum : (text before).length + p.scalars.length =
          (text before).length + first.length + rest.flatten.length := by
        rw [← whole, List.length_append, Nat.add_assoc]
      have index : layout 0 (before ++ ⟨p.node, first⟩ :: (number w.nextNode rest ++ after)) =
          layout 0 before ++ (⟨p.node, first⟩ : Piece).run (text before).length ::
            layout ((text before).length + first.length) (number w.nextNode rest) ++
              layout ((text before).length + p.scalars.length) after := by
        rw [layout_append, layout, layout_append, text_number, Nat.zero_add, sum,
          List.append_assoc, List.cons_append]
      rw [same, laid.runs, take_layout, drop_layout, Nat.zero_add, index, map_node,
        List.map_append, length_characters_encode scalar_first]
      rfl
    refine ⟨⟨p.node, first⟩ :: number w.nextNode rest, ?_, ?_, ?_, by rw [divided]⟩
    · rw [divided]
      exact laid.replaced (whole ▸ scalar)
    · rw [text_cons, text_number]
      exact whole
    · have bounded : ∀ piece ∈ first :: rest, piece ≠ [] ∧ piece.length ≤ RUN_MAX_SCALARS := by
        intro piece member
        rw [← cut] at member
        exact Pieces.length_of_mem_cut member
      intro q member
      rcases List.mem_cons.mp member with same | later
      · rw [same]
        exact bounded first List.mem_cons_self
      · exact bounded q.scalars (List.mem_cons_of_mem first (mem_number later).1)

end Split

end DomWriter

end ConfluenceEditor
