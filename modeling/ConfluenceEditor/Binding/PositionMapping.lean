/-
Positions of the document and of the DOM.

The definitions follow the source: a position is a node and an offset into it. In a text node the offset
counts code units, in an element it counts children (`normalizeElementPosition`). `before` is what the
number should be: the scalars in front of a position, in the order of the tree. The mapping is right for
the root and for the text nodes of the index (`positions_correspond`); in an element inside the root it
counts from that element (`break_counts_from_itself`).
-/

import ConfluenceEditor.Binding.Splice
import Mathlib.Data.List.Nodup

namespace ConfluenceEditor

open UnicodeOffsets RenderIndex

/-- A node of the DOM. -/
inductive DomNode where
  | text (textNode : Text)
  | element (id : Nat) (childNodes : List DomNode)
  | other (id nodeType : Nat)

structure DomPosition where
  node : DomNode
  offset : Nat

namespace PositionMapping

def visToDom (index : List RenderRun) (root : DomNode) (v : Int) : Except String DomPosition :=
  if v < 0 ∨ (totalVisibleLength index : Int) < v then
    .error ("visToDom: " ++ toString v ++ " is out of range [0, " ++
      toString (totalVisibleLength index) ++ "]")
  else if index.length = 0 then .ok ⟨root, 0⟩
  else
    match findRunForVis index v.toNat with
    | none => .error ("visToDom: " ++ toString v ++
        " not found in any run — renderIndex is inconsistent")
    | some (run, _) =>
        match scalarToUtf16 run.textNode.data (v - run.startVis) with
        | .ok utf16Offset => .ok ⟨.text run.textNode, utf16Offset⟩
        | .error message => .error message

def isNode (textNode : Text) (run : RenderRun) : Bool := run.textNode.id == textNode.id

/-- The loop over the children. -/
def normalizeLoop (index : List RenderRun) : Nat → List DomNode → Nat
  | vis, [] => vis
  | vis, .text textNode :: children =>
      match index.find? (isNode textNode) with
      | some run => normalizeLoop index (vis + run.scalarLen) children
      | none => normalizeLoop index vis children
  | vis, .element .. :: children => normalizeLoop index vis children
  | vis, .other .. :: children => normalizeLoop index vis children

def normalizeElementPosition (index : List RenderRun) (children : List DomNode) (offset : Int) :
    Except String Nat :=
  if offset < 0 then
    .error ("normalizeElementPosition: offset must be a non-negative integer, got " ++
      toString offset)
  else .ok (normalizeLoop index 0 (children.take (min offset.toNat children.length)))

def domToVis (index : List RenderRun) (node : DomNode) (offset : Int) : Except String Nat :=
  match node with
  | .text textNode =>
      match index.find? (isNode textNode) with
      | none => .error "domToVis: text node does not belong to any known render run"
      | some run =>
          match utf16ToScalar run.textNode.data offset with
          | .ok localScalar => .ok (run.startVis + localScalar)
          | .error message => .error message
  | .element _ children => normalizeElementPosition index children offset
  | .other _ nodeType => .error ("domToVis: unsupported node type " ++ toString nodeType)

/-! ### What the number should be -/

/-- The text node of a run. -/
def isRendered (index : List RenderRun) : DomNode → Bool
  | .text textNode => index.any (isNode textNode)
  | _ => false

mutual

/-- The scalars of the document that are in a node. -/
def scalars (index : List RenderRun) : DomNode → Nat
  | .text textNode => if index.any (isNode textNode) then (characters textNode.data).length else 0
  | .element _ children => scalarsOf index children
  | .other .. => 0

def scalarsOf (index : List RenderRun) : List DomNode → Nat
  | [] => 0
  | child :: children => scalars index child + scalarsOf index children

end

/-- The node that a path of child indices leads to. -/
def nodeAt : DomNode → List Nat → Option DomNode
  | node, [] => some node
  | .element _ children, i :: path => children[i]?.bind fun child => nodeAt child path
  | _, _ :: _ => none

/-- The scalars of the document in front of a position in the node that the path leads to. -/
def before (index : List RenderRun) : DomNode → List Nat → Nat → Nat
  | .text textNode, [], offset => scalars index (.text ⟨textNode.id, textNode.data.take offset⟩)
  | .element _ children, [], offset => scalarsOf index (children.take offset)
  | .element _ children, i :: path, offset => scalarsOf index (children.take i) +
      (children[i]?.map fun child => before index child path offset).getD 0
  | _, _, _ => 0

/-- The index passes the assertion of the writer, over well-formed text in distinct nodes. -/
structure Consistent (index : List RenderRun) : Prop where
  checked : DomWriter.checkRuns 0 index = .ok ()
  nodes : (index.map (·.textNode.id)).Nodup
  wellFormed : ∀ run ∈ index, WellFormed run.textNode.data

/-- The text nodes of the index are children of the root, in their order; whatever else the browser has
put there holds none of them. -/
structure Shown (index : List RenderRun) (children : List DomNode) : Prop where
  inOrder : children.filter (isRendered index) = index.map fun run => .text run.textNode
  elsewhere : ∀ child ∈ children, isRendered index child = false → scalars index child = 0

/-- The position is between the halves of a pair. -/
def splitsPair (position : DomPosition) : Bool :=
  match position.node with
  | .text textNode => isInsideSurrogatePair textNode.data position.offset
  | _ => false

/-! ### Consistent indices -/

section Consistency

variable {index : List RenderRun} {run : RenderRun} {children : List DomNode}

/-- The assertion and the well-formedness make an index that of a text in pieces. -/
theorem exists_layout {start : Nat} (checked : DomWriter.checkRuns start index = .ok ())
    (wellFormed : ∀ run ∈ index, WellFormed run.textNode.data) :
    ∃ pieces, index = layout start pieces ∧ ∀ p ∈ pieces, ∀ v ∈ p.scalars, v.isValidChar := by
  induction index generalizing start with
  | nil => exact ⟨[], rfl, fun p member => by cases member⟩
  | cons run index ih =>
      obtain ⟨here, later⟩ := List.forall_mem_cons.mp wellFormed
      rw [DomWriter.checkRuns] at checked
      by_cases begins : run.startVis ≠ start
      · rw [if_pos begins] at checked
        cases checked
      rw [if_neg begins] at checked
      by_cases counted : run.scalarLen ≠ (characters run.textNode.data).length
      · rw [if_pos counted] at checked
        cases checked
      rw [if_neg counted] at checked
      by_cases measured : run.utf16Len ≠ run.textNode.data.length
      · rw [if_pos measured] at checked
        cases checked
      rw [if_neg measured] at checked
      have length : run.scalarLen = (Utf16.codePoints run.textNode.data).length :=
        (not_not.mp counted).trans (List.length_map ..)
      obtain ⟨pieces, rest, scalar⟩ := ih checked later
      have own : run = (⟨run.textNode.id, Utf16.codePoints run.textNode.data⟩ : Piece).run start := by
        rw [Piece.run, here.encode, ← length, ← not_not.mp begins, ← not_not.mp measured]
      refine ⟨⟨run.textNode.id, Utf16.codePoints run.textNode.data⟩ :: pieces, ?_, ?_⟩
      · rw [layout, ← own, ← length, ← rest]
      · exact List.forall_mem_cons.mpr ⟨here.2, scalar⟩

theorem find_isNode (nodes : (index.map (·.textNode.id)).Nodup) (member : run ∈ index) :
    index.find? (isNode run.textNode) = some run := by
  induction index with
  | nil => cases member
  | cons first index ih =>
      rw [List.map_cons, List.nodup_cons] at nodes
      rcases List.mem_cons.mp member with same | later
      · rw [same]
        exact List.find?_cons_of_pos (beq_self_eq_true _)
      · have other : ¬ isNode run.textNode first = true := by
          intro same
          refine nodes.1 ?_
          rw [eq_of_beq same]
          exact List.mem_map_of_mem later
        rw [List.find?_cons_of_neg other]
        exact ih nodes.2 later

theorem Consistent.domToVis_text (consistent : Consistent index) (member : run ∈ index)
    (offset : Int) : domToVis index (.text run.textNode) offset =
      match utf16ToScalar run.textNode.data offset with
      | .ok localScalar => .ok (run.startVis + localScalar)
      | .error message => .error message := by
  rw [domToVis, find_isNode consistent.nodes member]

/-- What a child of the root contributes to the loop. -/
theorem normalizeLoop_eq (vis : Nat) (agrees : ∀ child ∈ children, ∀ t, child = .text t →
      ∀ run ∈ index, isNode t run = true → run.scalarLen = (characters t.data).length)
    (flat : ∀ child ∈ children, isRendered index child = false → scalars index child = 0) :
    normalizeLoop index vis children = vis + scalarsOf index children := by
  induction children generalizing vis with
  | nil => rfl
  | cons child children ih =>
      have ⟨here, later⟩ := List.forall_mem_cons.mp agrees
      have ⟨empty, below⟩ := List.forall_mem_cons.mp flat
      rw [scalarsOf]
      cases child with
      | text t =>
          cases found : index.find? (isNode t) with
          | none =>
              have absent : isRendered index (.text t) = false := by
                rw [isRendered, List.any_eq_false]
                exact List.find?_eq_none.mp found
              rw [normalizeLoop, found, ih vis later below, empty absent, Nat.zero_add]
          | some run =>
              have own := List.find?_some found
              have member := List.mem_of_find?_eq_some found
              have counted : scalars index (.text t) = run.scalarLen := by
                rw [scalars, if_pos (List.any_eq_true.mpr ⟨run, member, own⟩),
                  here t rfl run member own]
              rw [normalizeLoop, found]
              refine (ih _ later below).trans ?_
              rw [counted, Nat.add_assoc]
      | element id inner => rw [normalizeLoop, ih vis later below, empty rfl, Nat.zero_add]
      | other id nodeType => rw [normalizeLoop, ih vis later below, empty rfl, Nat.zero_add]

theorem Consistent.lengths (consistent : Consistent index) (member : run ∈ index) :
    run.scalarLen = (characters run.textNode.data).length := by
  have ⟨pieces, whole, scalar⟩ := exists_layout consistent.checked consistent.wellFormed
  rw [whole] at member
  have ⟨p, inside, own⟩ := mem_layout member
  rw [own]
  exact (DomWriter.length_characters_encode (scalar p inside)).symm

/-- A text node of the index is the same object in the root. -/
theorem Shown.textNode_eq (consistent : Consistent index) (shown : Shown index children) {t : Text}
    (child : .text t ∈ children) (member : run ∈ index) (own : isNode t run = true) :
    t = run.textNode := by
  have rendered : isRendered index (.text t) = true := List.any_eq_true.mpr ⟨run, member, own⟩
  have listed : DomNode.text t ∈ children.filter (isRendered index) :=
    List.mem_filter.mpr ⟨child, rendered⟩
  rw [shown.inOrder] at listed
  have ⟨run', member', same⟩ := List.mem_map.mp listed
  have here : run'.textNode = t := DomNode.text.inj same
  have names : run.textNode.id = run'.textNode.id := by
    rw [here]
    exact eq_of_beq own
  rw [List.inj_on_of_nodup_map consistent.nodes member member' names, here]

theorem scalarsOf_filter
    (flat : ∀ child ∈ children, isRendered index child = false → scalars index child = 0) :
    scalarsOf index children = scalarsOf index (children.filter (isRendered index)) := by
  induction children with
  | nil => rfl
  | cons child children ih =>
      have ⟨empty, below⟩ := List.forall_mem_cons.mp flat
      rw [scalarsOf, ih below]
      by_cases rendered : isRendered index child = true
      · rw [List.filter_cons_of_pos rendered, scalarsOf]
      · rw [List.filter_cons_of_neg rendered, empty (Bool.not_eq_true _ ▸ rendered), Nat.zero_add]

theorem scalars_text (member : run ∈ index) (data : List Nat) :
    scalars index (.text ⟨run.textNode.id, data⟩) = (characters data).length := by
  have rendered : index.any (isNode ⟨run.textNode.id, data⟩) = true :=
    List.any_eq_true.mpr ⟨run, member, beq_self_eq_true _⟩
  rw [scalars, if_pos rendered]

theorem Consistent.scalarsOf_map (consistent : Consistent index) {runs : List RenderRun}
    (inside : ∀ run ∈ runs, run ∈ index) :
    scalarsOf index (runs.map fun run => .text run.textNode) =
      (runs.map RenderRun.scalarLen).sum := by
  induction runs with
  | nil => rfl
  | cons run runs ih =>
      have ⟨here, later⟩ := List.forall_mem_cons.mp inside
      rw [List.map_cons, scalarsOf, ih later, List.map_cons, List.sum_cons,
        scalars_text here, consistent.lengths here]

/-- The scalars in front of a text node of the index. -/
theorem Shown.scalarsOf_take (consistent : Consistent index) (shown : Shown index children) {i : Nat}
    (member : run ∈ index) (child : children[i]? = some (.text run.textNode)) :
    scalarsOf index (children.take i) = run.startVis := by
  have ⟨within, here⟩ := List.getElem?_eq_some_iff.mp child
  have split : children = children.take i ++ .text run.textNode :: children.drop (i + 1) := by
    rw [← here, List.getElem_cons_drop, List.take_append_drop]
  have rendered : isRendered index (.text run.textNode) = true :=
    List.any_eq_true.mpr ⟨run, member, beq_self_eq_true _⟩
  have order := shown.inOrder
  rw [split, List.filter_append, List.filter_cons_of_pos rendered] at order
  have ⟨runs, rest, whole, front, tail⟩ := List.map_eq_append_iff.mp order.symm
  have ⟨run', runs', more, same, _⟩ := List.map_eq_cons_iff.mp tail
  have nodes : run'.textNode = run.textNode := DomNode.text.inj same
  have position : index = runs ++ run' :: runs' := by rw [whole, more]
  have member' : run' ∈ index := by
    rw [position]
    exact List.mem_append_right runs List.mem_cons_self
  have own : run' = run :=
    List.inj_on_of_nodup_map consistent.nodes member' member (congrArg Text.id nodes)
  have ⟨pieces, laid, _⟩ := exists_layout consistent.checked consistent.wellFormed
  have starts : run.startVis = 0 + (runs.map RenderRun.scalarLen).sum := by
    rw [← own]
    exact startVis_layout (laid.symm.trans position)
  have flat : ∀ child ∈ children.take i, isRendered index child = false →
      scalars index child = 0 := fun child inside =>
    shown.elsewhere child (List.mem_of_mem_take inside)
  rw [scalarsOf_filter flat, ← front, consistent.scalarsOf_map, starts, Nat.zero_add]
  intro r inside
  rw [whole]
  exact List.mem_append_left rest inside

/-- What the writer has built is consistent, and its text nodes are the children of the root. -/
theorem shows_consistent {w : DomWriter} {doc : List Nat} (shows : w.Shows (some doc)) :
    Consistent w.runs ∧ Shown w.runs (w.runs.map fun run => .text run.textNode) := by
  have ⟨pieces, laid, _, _⟩ := shows
  refine ⟨⟨?_, ?_, shows.rendered.2.wellFormed⟩, ?_, ?_⟩
  · rw [laid.runs]
    exact DomWriter.checkRuns_layout 0 fun p member =>
      Utf16.codePoints_encode (laid.scalar p member)
  · rw [laid.runs, map_id_layout]
    exact laid.nodes
  · refine List.filter_eq_self.mpr fun child member => ?_
    have ⟨run, inside, same⟩ := List.mem_map.mp member
    rw [← same]
    exact List.any_eq_true.mpr ⟨run, inside, beq_self_eq_true _⟩
  · intro child member absent
    have ⟨run, inside, same⟩ := List.mem_map.mp member
    rw [← same] at absent
    rw [isRendered, List.any_eq_false] at absent
    exact absurd (beq_self_eq_true run.textNode.id) (absent run inside)

/-! ### The mappings -/

/-- Where a position of the index is in the DOM. -/
theorem visToDom_layout {pieces : List Piece}
    (decodes : ∀ p ∈ pieces, Utf16.codePoints (Utf16.encode p.scalars) = p.scalars)
    (root : DomNode) {n : Nat} (inside : n ≤ (text pieces).length) :
    (pieces = [] ∧ visToDom (layout 0 pieces) root n = .ok ⟨root, 0⟩) ∨
      ∃ before p after k, pieces = before ++ p :: after ∧ n = (text before).length + k ∧
        k ≤ p.scalars.length ∧ visToDom (layout 0 pieces) root n =
          .ok ⟨.text (p.run (text before).length).textNode,
            (Utf16.encode (p.scalars.take k)).length⟩ := by
  have total := totalVisibleLength_layout pieces
  have position : (n : Int).toNat = n := Int.toNat_natCast n
  rw [visToDom, if_neg (by omega)]
  by_cases empty : pieces = []
  · refine Or.inl ⟨empty, ?_⟩
    rw [empty]
    rfl
  · have ⟨before, p, after, k, split, sum, fits, _, found⟩ := findRunForVis_layout empty inside
    refine Or.inr ⟨before, p, after, k, split, sum, fits, ?_⟩
    have known : ¬ (layout 0 pieces).length = 0 := by
      rw [length_layout]
      exact fun none => empty (List.length_eq_zero_iff.mp none)
    have behind : (n : Int) - (p.run (text before).length).startVis = (k : Int) := by
      show (n : Int) - ((text before).length : Int) = k
      omega
    have decoded := decodes p (by
      rw [split]
      exact List.mem_append_right before List.mem_cons_self)
    have converted : scalarToUtf16 (p.run (text before).length).textNode.data k =
        .ok (Utf16.encode (p.scalars.take k)).length :=
      scalarToUtf16_iff.mpr ⟨k, fits.trans_eq (congrArg List.length decoded).symm, rfl,
        congrArg (fun t : List Nat => (Utf16.encode (t.take k)).length) decoded.symm⟩
    rw [if_neg known, position, found]
    dsimp only
    rw [behind, converted]

/-- A position of the index comes back, and is not inside a pair. -/
theorem Consistent.domToVis_visToDom (consistent : Consistent index) (root : Nat) {v : Int}
    (least : 0 ≤ v) (most : v ≤ totalVisibleLength index) :
    ∃ position, visToDom index (.element root children) v = .ok position ∧
      splitsPair position = false ∧ domToVis index position.node position.offset = .ok v.toNat := by
  have ⟨pieces, laid, scalar⟩ := exists_layout consistent.checked consistent.wellFormed
  have ⟨n, whole⟩ := Int.eq_ofNat_of_zero_le least
  rw [whole] at most ⊢
  have inside : n ≤ (text pieces).length := by
    rw [← totalVisibleLength_layout, ← laid]
    exact Int.ofNat_le.mp most
  have decodes : ∀ p ∈ pieces, Utf16.codePoints (Utf16.encode p.scalars) = p.scalars :=
    fun p member => Utf16.codePoints_encode (scalar p member)
  rcases visToDom_layout decodes (.element root children) inside with
    ⟨empty, mapped⟩ | ⟨before, p, after, k, split, sum, fits, mapped⟩
  · rw [← laid] at mapped
    have zero : n = 0 := by
      rw [empty] at inside
      exact Nat.le_zero.mp inside
    refine ⟨_, mapped, rfl, ?_⟩
    rw [zero]
    rfl
  · rw [← laid] at mapped
    set run := p.run (text before).length with hrun
    have piece : p ∈ pieces := by
      rw [split]
      exact List.mem_append_right before List.mem_cons_self
    have member : run ∈ index := by
      have here := getElem?_layout 0 before p after
      rw [← split, ← laid, Nat.zero_add] at here
      exact List.mem_of_getElem? here
    have converted : scalarToUtf16 run.textNode.data k =
        .ok (Utf16.encode (p.scalars.take k)).length :=
      scalarToUtf16_iff.mpr ⟨k, fits.trans_eq (congrArg List.length (decodes p piece)).symm, rfl,
        congrArg (fun t : List Nat => (Utf16.encode (t.take k)).length) (decodes p piece).symm⟩
    refine ⟨_, mapped, ?_, ?_⟩
    · exact (boundary_iff (scalar p piece) (DomWriter.length_encode_take p.scalars k)).mp
        ⟨k, fits, rfl⟩
    · show domToVis index (.text run.textNode) _ = _
      rw [consistent.domToVis_text member, (scalarToUtf16_iff_utf16ToScalar _ _ _).mp converted]
      have start : run.startVis = (text before).length := rfl
      rw [start, sum]
      rfl

/-- A position in the root. -/
theorem Shown.domToVis_root (consistent : Consistent index) (shown : Shown index children)
    (root : Nat) {offset : Int} {v : Nat}
    (accepted : domToVis index (.element root children) offset = .ok v) :
    v = before index (.element root children) [] offset.toNat := by
  have agrees : ∀ child ∈ children.take offset.toNat, ∀ t, child = .text t →
      ∀ run ∈ index, isNode t run = true → run.scalarLen = (characters t.data).length := by
    intro child inside t same run member own
    rw [same] at inside
    rw [shown.textNode_eq consistent (List.mem_of_mem_take inside) member own]
    exact consistent.lengths member
  have flat : ∀ child ∈ children.take offset.toNat, isRendered index child = false →
      scalars index child = 0 := fun child inside =>
    shown.elsewhere child (List.mem_of_mem_take inside)
  rw [domToVis, normalizeElementPosition] at accepted
  by_cases negative : offset < 0
  · rw [if_pos negative] at accepted
    cases accepted
  · rw [if_neg negative, ← List.take_eq_take_min, normalizeLoop_eq 0 agrees flat,
      Nat.zero_add] at accepted
    rw [before]
    exact (Except.ok.inj accepted).symm

/-- A position in a text node of the index. -/
theorem Shown.domToVis_text (consistent : Consistent index) (shown : Shown index children)
    (root : Nat) {i : Nat} (member : run ∈ index) (child : children[i]? = some (.text run.textNode))
    {offset : Int} {v : Nat} (accepted : domToVis index (.text run.textNode) offset = .ok v) :
    v = before index (.element root children) [i] offset.toNat := by
  have wellFormed := consistent.wellFormed run member
  rw [consistent.domToVis_text member] at accepted
  cases converted : utf16ToScalar run.textNode.data offset with
  | error message =>
      rw [converted] at accepted
      cases accepted
  | ok s =>
      rw [converted] at accepted
      have ⟨inside, units⟩ := utf16ToScalar_iff.mp converted
      have position : offset.toNat =
          (Utf16.encode ((Utf16.codePoints run.textNode.data).take s)).length := by
        rw [units, Int.toNat_natCast]
      have front : run.textNode.data.take offset.toNat =
          Utf16.encode ((Utf16.codePoints run.textNode.data).take s) := by
        have taken := DomWriter.take_encode (Utf16.codePoints run.textNode.data) s
        rwa [wellFormed.encode, ← position] at taken
      have scalar : ∀ u ∈ (Utf16.codePoints run.textNode.data).take s, u.isValidChar :=
        fun u taken => wellFormed.2 u (List.mem_of_mem_take taken)
      rw [before, shown.scalarsOf_take consistent member child, child, Option.map_some, before,
        scalars_text member, front, DomWriter.length_characters_encode scalar,
        List.length_take_of_le inside]
      exact (Except.ok.inj accepted).symm

theorem normalizeLoop_flat (vis : Nat) (flat : ∀ child ∈ children, isRendered index child = false) :
    normalizeLoop index vis children = vis := by
  induction children generalizing vis with
  | nil => rfl
  | cons child children ih =>
      have ⟨here, later⟩ := List.forall_mem_cons.mp flat
      cases child with
      | text t =>
          rw [isRendered, List.any_eq_false] at here
          rw [normalizeLoop, List.find?_eq_none.mpr here]
          exact ih vis later
      | element id inner => rw [normalizeLoop, ih vis later]
      | other id nodeType => rw [normalizeLoop, ih vis later]

/-- In any other element the code counts from the element itself. -/
theorem domToVis_elsewhere {id : Nat} (flat : ∀ child ∈ children, isRendered index child = false)
    {offset : Int} {v : Nat} (accepted : domToVis index (.element id children) offset = .ok v) :
    v = 0 := by
  rw [domToVis, normalizeElementPosition] at accepted
  by_cases negative : offset < 0
  · rw [if_pos negative] at accepted
    cases accepted
  · rw [if_neg negative, normalizeLoop_flat 0 fun child inside =>
      flat child (List.mem_of_mem_take inside)] at accepted
    exact (Except.ok.inj accepted).symm

/-- The middle of a pair is refused. -/
theorem Consistent.domToVis_inside (consistent : Consistent index) (member : run ∈ index)
    {offset : Int} (inside : isInsideSurrogatePair run.textNode.data offset = true) :
    ∃ message, domToVis index (.text run.textNode) offset = .error message := by
  have wellFormed := consistent.wellFormed run member
  rw [consistent.domToVis_text member]
  cases converted : utf16ToScalar run.textNode.data offset with
  | error message => exact ⟨message, rfl⟩
  | ok s =>
      exfalso
      have ⟨counted, units⟩ := utf16ToScalar_iff.mp converted
      have outside := (boundary_iff wellFormed.2 (DomWriter.length_encode_take _ s)).mp
        ⟨s, counted, rfl⟩
      rw [← units, wellFormed.encode, inside] at outside
      cases outside

end Consistency

/-- The scalar offsets of a string and the code units between its pairs correspond. -/
theorem conversions_invert {text : List Nat} (wellFormed : WellFormed text) :
    (∀ s u : Nat, scalarToUtf16 text s = .ok u ↔ utf16ToScalar text u = .ok s) ∧
    (∀ s : Nat, s ≤ (Utf16.codePoints text).length ↔ ∃ u, scalarToUtf16 text s = .ok u) ∧
    (∀ u : Nat, u ≤ text.length ∧ isInsideSurrogatePair text u = false ↔
      ∃ s, utf16ToScalar text u = .ok s) := by
  refine ⟨scalarToUtf16_iff_utf16ToScalar text, fun s => ?_, fun u => ?_⟩
  · constructor
    · intro inside
      exact ⟨_, scalarToUtf16_iff.mpr ⟨s, inside, rfl, rfl⟩⟩
    · intro ⟨u, converted⟩
      have ⟨k, inside, same, _⟩ := scalarToUtf16_iff.mp converted
      omega
  · constructor
    · intro ⟨within, outside⟩
      rw [← wellFormed.encode] at within outside
      have ⟨k, inside, same⟩ := (boundary_iff wellFormed.2 within).mpr outside
      exact ⟨k, utf16ToScalar_iff.mpr ⟨inside, congrArg Nat.cast same⟩⟩
    · intro ⟨s, converted⟩
      have ⟨inside, units⟩ := utf16ToScalar_iff.mp converted
      have same : u = (Utf16.encode ((Utf16.codePoints text).take s)).length := Int.ofNat.inj units
      have within : u ≤ (Utf16.encode (Utf16.codePoints text)).length := by
        rw [same]
        exact DomWriter.length_encode_take _ s
      have outside := (boundary_iff wellFormed.2 within).mp ⟨s, inside, same⟩
      rw [wellFormed.encode] at within outside
      exact ⟨within, outside⟩

/-- The positions in the root and in its text nodes correspond to those of the index. -/
theorem positions_correspond {index : List RenderRun} (consistent : Consistent index)
    {children : List DomNode} (shown : Shown index children) (root : Nat) :
    (∀ v : Int, 0 ≤ v → v ≤ totalVisibleLength index →
      ∃ position, visToDom index (.element root children) v = .ok position ∧
        splitsPair position = false ∧
        domToVis index position.node position.offset = .ok v.toNat) ∧
    (∀ (offset : Int) v, domToVis index (.element root children) offset = .ok v →
      v = before index (.element root children) [] offset.toNat) ∧
    (∀ run ∈ index, ∀ i, children[i]? = some (.text run.textNode) → ∀ (offset : Int) v,
      domToVis index (.text run.textNode) offset = .ok v →
        v = before index (.element root children) [i] offset.toNat) ∧
    (∀ id inner, (∀ child ∈ inner, isRendered index child = false) → ∀ (offset : Int) v,
      domToVis index (.element id inner) offset = .ok v → v = 0) ∧
    (∀ run ∈ index, ∀ offset : Int, isInsideSurrogatePair run.textNode.data offset = true →
      ∃ message, domToVis index (.text run.textNode) offset = .error message) ∧
    (∀ text, WellFormed text →
      (∀ s u : Nat, scalarToUtf16 text s = .ok u ↔ utf16ToScalar text u = .ok s) ∧
      (∀ s : Nat, s ≤ (Utf16.codePoints text).length ↔ ∃ u, scalarToUtf16 text s = .ok u) ∧
      (∀ u : Nat, u ≤ text.length ∧ isInsideSurrogatePair text u = false ↔
        ∃ s, utf16ToScalar text u = .ok s)) := by
  refine ⟨fun v => consistent.domToVis_visToDom root,
    fun offset v => shown.domToVis_root consistent root,
    fun run member i child offset v => shown.domToVis_text consistent root member child,
    fun id inner flat offset v => domToVis_elsewhere flat,
    fun run member offset => consistent.domToVis_inside member,
    fun text => conversions_invert⟩

/-- A run with a letter and an astral character, and a line break of the browser behind it. -/
def brokenIndex : List RenderRun := [⟨⟨7, [97, 0xd83d, 0xde00]⟩, 0, 2, 3⟩]

def brokenChildren : List DomNode := [.text ⟨7, [97, 0xd83d, 0xde00]⟩, .element 8 []]

theorem brokenIndex_consistent : Consistent brokenIndex :=
  ⟨by decide, List.nodup_singleton 7, by decide⟩

theorem brokenChildren_shown : Shown brokenIndex brokenChildren := by
  refine ⟨rfl, ?_⟩
  intro child member absent
  rcases List.mem_cons.mp member with same | later
  · rw [same] at absent
    cases absent
  · rw [List.mem_singleton.mp later]
    rfl

theorem positions_correspond_broken :
    ∃ position, visToDom brokenIndex (.element 1 brokenChildren) 1 = .ok position ∧
      splitsPair position = false ∧
      domToVis brokenIndex position.node position.offset = .ok 1 :=
  (positions_correspond brokenIndex_consistent brokenChildren_shown 1).1 1 (by decide) (by decide)

/-- The position in front of everything in the line break is behind two scalars, and is mapped to 0. -/
theorem break_counts_from_itself :
    Consistent brokenIndex ∧ Shown brokenIndex brokenChildren ∧
      nodeAt (.element 1 brokenChildren) [1] = some (.element 8 []) ∧
      domToVis brokenIndex (.element 8 []) 0 = .ok 0 ∧
      before brokenIndex (.element 1 brokenChildren) [1] 0 = 2 :=
  ⟨brokenIndex_consistent, brokenChildren_shown, rfl, rfl, rfl⟩

end PositionMapping

end ConfluenceEditor
