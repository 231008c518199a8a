/-
The body of a snapshot in its structure form.

The nodes are written in blocks: maximal runs in which each node hangs to the right of the one
before it, with the next counter and the same flags, so that a block needs the first identifier and
its text only. `decode_encode_structure` reads the nodes back when their identifiers and lengths can
be written and their values are Unicode scalars.
-/

import ConfluenceEditor.Protocol.RoundTrip
import Mathlib.Data.List.SplitBy

namespace ConfluenceEditor

open SidedForest (Side)
open Wire

namespace Codec

def FLAG_DELETED : Nat := 0x08
def FLAG_HAS_DELETED_BY : Nat := 0x10
def STRUCTURE_KNOWN_FLAG_BITS : Nat :=
  FLAG_HAS_PARENT ||| FLAG_SIDE_R ||| FLAG_BIND ||| FLAG_DELETED ||| FLAG_HAS_DELETED_BY

/-- `next` goes into the block whose last node is `prev`. -/
def canChainAfter (prev next : Node) : Bool :=
  decide (next.id.r = prev.id.r) && decide (next.id.c = prev.id.c + 1) &&
    decide (next.parent = some prev.id) && decide (next.side = .R) &&
    decide (next.bind = prev.bind) && decide (next.deleted = prev.deleted) &&
    decide (next.deletedBy = prev.deletedBy)

def groupIntoChainBlocks (nodes : List Node) : List (List Node) := nodes.splitBy canChainAfter

/-- The flags byte of a block, from its first node. -/
def blockFlags (hasParent : Bool) (side : Side) (bind deleted hasDeletedBy : Bool) : Nat :=
  let flags := 0
  let flags := if hasParent then flags ||| FLAG_HAS_PARENT else flags
  let flags := if side = .R then flags ||| FLAG_SIDE_R else flags
  let flags := if bind then flags ||| FLAG_BIND else flags
  let flags := if deleted then flags ||| FLAG_DELETED else flags
  if hasDeletedBy then flags ||| FLAG_HAS_DELETED_BY else flags

def encodeBlock : List Node → ByteWriter Unit
  | [] => pure ()
  | first :: block => do
      writeByte (blockFlags first.parent.isSome first.side first.bind first.deleted
        first.deletedBy.isSome)
      encodeStamp first.id
      writeVarint (first :: block).length
      encodeOptionalStamp first.parent
      let text ← (fromCodePoint ((first :: block).map Node.value) : Except String (List Char))
      let utf8 := textEncode text
      writeVarint utf8.length
      writeBytes utf8
      encodeOptionalStamp first.deletedBy

/-- The nodes of a block; only the first one has its own parent and side. -/
def expandBlock (id : Identifier) (parent : Option Identifier) (side : Side) (bind deleted : Bool)
    (deletedBy : Option Identifier) : List Nat → List Node
  | [] => []
  | value :: values =>
      ⟨id, value, parent, side, bind, deleted, deletedBy⟩ ::
        expandBlock ⟨id.c + 1, id.r⟩ (some id) .R bind deleted deletedBy values

def decodeBlock : ByteReader (List Node) := do
  let flags ← readByte
  checkNoReservedBits flags STRUCTURE_KNOWN_FLAG_BITS "RESERVED_FLAG_BITS_SET"
    "structure snapshot block flags byte has a reserved bit set (bits 5-7 must be 0)"
  let id ← decodeStamp
  let count ← readVarint
  if count < 1 then
    throw ⟨"BLOCK_TOO_SHORT",
      "structure snapshot block declared count " ++ toString count ++ ", must be >= 1"⟩
  else do
    let firstParent ← decodeOptionalStamp (flags &&& FLAG_HAS_PARENT ≠ 0)
    let firstSide := if flags &&& FLAG_SIDE_R ≠ 0 then Side.R else Side.L
    let byteLength ← readVarint
    let utf8 ← readBytes byteLength
    match textDecode utf8 with
    | none => throw ⟨"INVALID_UTF8", "structure snapshot block's utf8 field is not valid UTF-8"⟩
    | some text =>
        let values := text.map Char.toNat
        if values.length ≠ count then
          throw ⟨"RUN_LENGTH_MISMATCH", "structure snapshot block declared count " ++
            toString count ++ " but utf8 decoded to " ++ toString values.length ++ " scalar(s)"⟩
        else do
          let deletedBy ← decodeOptionalStamp (flags &&& FLAG_HAS_DELETED_BY ≠ 0)
          pure (expandBlock id firstParent firstSide (flags &&& FLAG_BIND ≠ 0)
            (flags &&& FLAG_DELETED ≠ 0) deletedBy values)

end Codec

open Codec

def encodeStructureSnapshotBody (nodes : List Node) : Except String (List UInt8) := do
  let blocks := groupIntoChainBlocks nodes
  let writer : ByteWriter Unit := do
    writeVarint blocks.length
    writeEach encodeBlock blocks
  let (_, bytes) ← writer.run []
  .ok bytes

/-- The blocks, before the check that nothing is left. -/
def readStructureBlocks : ByteReader (List (List Node)) := do
  let blockCount ← readVarint
  readEach decodeBlock blockCount

def decodeStructureSnapshotBody (bytes : List UInt8) : Except ProtocolDecodeError (List Node) := do
  let (blocks, remaining) ← readStructureBlocks.run bytes
  if remaining ≠ [] then
    .error ⟨"TRAILING_BYTES", "structure snapshot body has " ++ toString remaining.length ++
      " unconsumed byte(s) after " ++ toString blocks.length ++ " block(s)"⟩
  else .ok blocks.flatten

namespace Codec

/-! ### Flags -/

section Flags

variable (hasParent : Bool) (side : Side) (bind deleted hasDeletedBy : Bool)

theorem blockFlags_small : blockFlags hasParent side bind deleted hasDeletedBy < 256 := by
  cases hasParent <;> cases side <;> cases bind <;> cases deleted <;> cases hasDeletedBy <;> decide

theorem blockFlags_known (reason message : String) :
    checkNoReservedBits (blockFlags hasParent side bind deleted hasDeletedBy)
      STRUCTURE_KNOWN_FLAG_BITS reason message = pure () := by
  refine if_neg (not_not.mpr ?_)
  cases hasParent <;> cases side <;> cases bind <;> cases deleted <;> cases hasDeletedBy <;> decide

theorem blockFlags_parent : decide (blockFlags hasParent side bind deleted hasDeletedBy &&&
    FLAG_HAS_PARENT ≠ 0) = hasParent := by
  cases hasParent <;> cases side <;> cases bind <;> cases deleted <;> cases hasDeletedBy <;> decide

theorem blockFlags_side : (if blockFlags hasParent side bind deleted hasDeletedBy &&&
    FLAG_SIDE_R ≠ 0 then Side.R else Side.L) = side := by
  cases hasParent <;> cases side <;> cases bind <;> cases deleted <;> cases hasDeletedBy <;> decide

theorem blockFlags_bind : decide (blockFlags hasParent side bind deleted hasDeletedBy &&&
    FLAG_BIND ≠ 0) = bind := by
  cases hasParent <;> cases side <;> cases bind <;> cases deleted <;> cases hasDeletedBy <;> decide

theorem blockFlags_deleted : decide (blockFlags hasParent side bind deleted hasDeletedBy &&&
    FLAG_DELETED ≠ 0) = deleted := by
  cases hasParent <;> cases side <;> cases bind <;> cases deleted <;> cases hasDeletedBy <;> decide

theorem blockFlags_deletedBy : decide (blockFlags hasParent side bind deleted hasDeletedBy &&&
    FLAG_HAS_DELETED_BY ≠ 0) = hasDeletedBy := by
  cases hasParent <;> cases side <;> cases bind <;> cases deleted <;> cases hasDeletedBy <;> decide

end Flags

/-! ### Blocks -/

/-- A block is determined by its first node and its values. -/
theorem expandBlock_of_isChain {first : Node} {block : List Node}
    (chain : (first :: block).IsChain fun prev next => canChainAfter prev next = true) :
    expandBlock first.id first.parent first.side first.bind first.deleted first.deletedBy
      ((first :: block).map Node.value) = first :: block := by
  induction block generalizing first with
  | nil => rfl
  | cons next block ih =>
      obtain ⟨chained, rest⟩ := List.isChain_cons_cons.mp chain
      simp only [canChainAfter, Bool.and_eq_true, decide_eq_true_eq] at chained
      obtain ⟨⟨⟨⟨⟨⟨replica, counter⟩, parent⟩, side⟩, bind⟩, deleted⟩, deletedBy⟩ := chained
      have id : (⟨first.id.c + 1, first.id.r⟩ : Identifier) = next.id := by
        rw [← replica, ← counter]
      rw [List.map_cons, expandBlock, id, ← parent, ← side, ← bind, ← deleted, ← deletedBy,
        ih rest, bind, deleted, deletedBy]

theorem length_textEncode (text : List Char) : (textEncode text).length ≤ 4 * text.length := by
  induction text with
  | nil => exact Nat.le_refl _
  | cons c text ih =>
      have size : (String.utf8EncodeChar c).length ≤ 4 := by
        rw [String.length_utf8EncodeChar]
        exact Char.utf8Size_le_four c
      rw [textEncode, List.flatMap_cons, List.length_append, List.length_cons]
      rw [textEncode] at ih
      omega

/-- A node that can be written. -/
structure SafeNode (n : Node) : Prop where
  id : SafeStamp n.id
  parent : ∀ p ∈ n.parent, SafeStamp p
  deletedBy : ∀ d ∈ n.deletedBy, SafeStamp d
  value : n.value.isValidChar

theorem codes_block {first : Node} {block : List Node}
    (chain : (first :: block).IsChain fun prev next => canChainAfter prev next = true)
    (safe : ∀ n ∈ first :: block, SafeNode n)
    (short : 4 * (first :: block).length ≤ MAX_SAFE_INTEGER) :
    Codes (encodeBlock (first :: block)) decodeBlock (first :: block) := by
  have node := safe first List.mem_cons_self
  have scalar : ∀ v ∈ (first :: block).map Node.value, v.isValidChar := by
    intro v member
    obtain ⟨n, inside, rfl⟩ := List.mem_map.mp member
    exact (safe n inside).value
  obtain ⟨text, values⟩ := exists_text scalar
  have count : text.length = (first :: block).length := by
    rw [← List.length_map (f := Char.toNat), values, List.length_map]
  have bytes : (textEncode text).length ≤ MAX_SAFE_INTEGER := by
    have := length_textEncode text
    omega
  have whole := expandBlock_of_isChain chain
  rw [encodeBlock, ← values, fromCodePoint_map_toNat]
  refine (codes_byte (blockFlags_small _ _ _ _ _)).bind ?_
  simp only [blockFlags_known, pure_bind, blockFlags_parent, blockFlags_side, blockFlags_bind,
    blockFlags_deleted, blockFlags_deletedBy]
  refine (codes_stamp node.id).bind ((codes_varint (by omega)).bind ?_)
  rw [if_neg (by simp)]
  refine (codes_optionalStamp node.parent).bind ?_
  refine (codes_varint bytes).bind ((codes_bytes (textEncode text)).bind ?_)
  simp only [textDecode_textEncode]
  rw [if_neg (by rw [List.length_map, count]; exact not_not.mpr rfl)]
  refine (codes_optionalStamp node.deletedBy).done ?_
  rw [values, whole]

theorem length_le_flatten {α : Type} {blocks : List (List α)} (full : [] ∉ blocks) :
    blocks.length ≤ blocks.flatten.length := by
  induction blocks with
  | nil => exact Nat.le_refl _
  | cons block blocks ih =>
      have rest := ih fun member => full (List.mem_cons_of_mem _ member)
      have some : block.length ≠ 0 := fun empty =>
        full (List.length_eq_zero_iff.mp empty ▸ List.mem_cons_self)
      rw [List.length_cons, List.flatten_cons, List.length_append]
      omega

end Codec

/-- The nodes that were written are read back. -/
theorem decode_encode_structure {nodes : List Node} (safe : ∀ n ∈ nodes, SafeNode n)
    (short : 4 * nodes.length ≤ MAX_SAFE_INTEGER) :
    ∃ bytes, encodeStructureSnapshotBody nodes = .ok bytes ∧
      decodeStructureSnapshotBody bytes = .ok nodes := by
  have whole : (groupIntoChainBlocks nodes).flatten = nodes := List.flatten_splitBy ..
  have count : (groupIntoChainBlocks nodes).length ≤ nodes.length := by
    conv_rhs => rw [← whole]
    exact length_le_flatten (List.nil_notMem_splitBy canChainAfter nodes)
  have blocks : ∀ block ∈ groupIntoChainBlocks nodes, Codes (encodeBlock block) decodeBlock block := by
    intro block member
    have inside : ∀ n ∈ block, n ∈ nodes := fun n there =>
      whole ▸ List.mem_flatten_of_mem member there
    have part : block.length ≤ nodes.length := by
      rw [← whole]
      exact (List.sublist_flatten_of_mem member).length_le
    cases block with
    | nil => exact absurd member (List.nil_notMem_splitBy canChainAfter nodes)
    | cons first block =>
        exact codes_block (List.isChain_of_mem_splitBy member) (fun n there => safe n (inside n there))
          (by omega)
  have fits : (groupIntoChainBlocks nodes).length ≤ MAX_SAFE_INTEGER := by omega
  obtain ⟨bytes, writes, reads⟩ := (codes_varint fits).bind (Codes.each blocks)
  refine ⟨bytes, ?_, ?_⟩
  · rw [encodeStructureSnapshotBody, writes []]
    rfl
  · have all := reads []
    rw [List.append_nil] at all
    rw [decodeStructureSnapshotBody, readStructureBlocks, all]
    exact congrArg Except.ok whole

/-- The nodes as the encoder is handed them: an array of the language has fewer than 2^32 elements. -/
abbrev NodeArray := {nodes : List Node // nodes.length < 2 ^ 32}

/-- A run of two, a tombstone that would continue it, and a node with an optional field that the
flag beside it contradicts. -/
def neighbours : NodeArray :=
  ⟨[⟨⟨1, 1⟩, 0xfeff, none, .R, false, false, none⟩,
    ⟨⟨2, 1⟩, 0x1f600, some ⟨1, 1⟩, .R, false, false, none⟩,
    ⟨⟨3, 1⟩, 98, some ⟨2, 1⟩, .R, false, true, some ⟨9, 2⟩⟩,
    ⟨⟨MAX_SAFE_INTEGER, 1⟩, 99, some ⟨3, 1⟩, .L, true, false, some ⟨0, MAX_SAFE_INTEGER⟩⟩],
    by decide⟩

end ConfluenceEditor
