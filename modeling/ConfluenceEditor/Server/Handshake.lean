/-
The server's side of a handshake.

A HELLO is answered by WELCOME, then by what its sync mode promises, then by ALREADY_HAVE: the
reported stamps that have a row, and those that the live engine has applied. The rows of a catch-up
are sent in chunks, each with the number of its last row and within both limits
(`chunks_cover_range`).
-/

import ConfluenceEditor.Protocol.Messages
import ConfluenceEditor.Server.WritePath
import Mathlib.Algebra.GroupWithZero.Nat

namespace ConfluenceEditor

open Engine

def decideSyncMode (hello : HelloMessage) (currentSeq : Nat) : SyncMode :=
  if !hello.hasResidentEngine || hello.lastServerSeq ≤ 0 || hello.lastServerSeq > currentSeq then
    .SNAPSHOT
  else if hello.lastServerSeq = currentSeq then .ALREADY_CURRENT
  else .CATCHUP

def CATCHUP_CHUNK_MAX_OPS : Nat := 256

def CATCHUP_CHUNK_MAX_BYTES : Nat := 64 * 1024

/-- The loop over the rows; `opBytes` is the length of an encoded operation. -/
def chunkLoop (opBytes : Operation → Nat) (current : List Operation)
    (currentBytes currentThroughSeq : Nat) : List OperationRow → List (Nat × List Operation)
  | [] => if current.length > 0 then [(currentThroughSeq, current)] else []
  | row :: rows =>
      if current.length > 0 ∧ (current.length ≥ CATCHUP_CHUNK_MAX_OPS ∨
          currentBytes + opBytes row.op > CATCHUP_CHUNK_MAX_BYTES) then
        (currentThroughSeq, current) :: chunkLoop opBytes [row.op] (opBytes row.op) row.seq rows
      else
        chunkLoop opBytes (current ++ [row.op]) (currentBytes + opBytes row.op) row.seq rows

/-- The operations of a range in chunks, each with the number of its last operation. -/
def chunkCatchupOperations (opBytes : Operation → Nat) (rangeOps : List OperationRow) :
    List (Nat × List Operation) := chunkLoop opBytes [] 0 0 rangeOps

/-- The control messages of a catch-up. -/
def buildCatchupMessages (opBytes : Operation → Nat) (store : Store) (fromSeq toSeq : Nat) :
    List ControlMessage :=
  let rangeOps := store.loadOperationLogRange fromSeq toSeq
  [.catchupBegin rangeOps.length] ++
    (chunkCatchupOperations opBytes rangeOps).map (fun chunk => .catchupChunk chunk.1 chunk.2) ++
    [.catchupEnd toSeq]

/-- The reported stamps without a row that the live engine has applied. -/
def appliedLive (e : Engine) (unackedStamps durablyExisting : List Identifier) : List Identifier :=
  unackedStamps.filter fun stamp => !decide (stamp ∈ durablyExisting) && e.hasApplied stamp

/-- The stamps of ALREADY_HAVE. -/
def alreadyHaveStamps (e : Engine) (unackedStamps durablyExisting : List Identifier) :
    List Identifier := durablyExisting ++ appliedLive e unackedStamps durablyExisting

/-! ### The chunks of a range -/

/-- The rows in chunks: in their order, none empty, each under the number of its last row. -/
inductive Chunked : List (Nat × List Operation) → List OperationRow → Prop
  | nil : Chunked [] []
  | cons (first : List OperationRow) (last : OperationRow) {chunks : List (Nat × List Operation)}
      {rows : List OperationRow} (rest : Chunked chunks rows) :
      Chunked ((last.seq, (first ++ [last]).map OperationRow.op) :: chunks) (first ++ [last] ++ rows)

theorem chunkLoop_spec (opBytes : Operation → Nat) (first : List OperationRow) (last : OperationRow)
    (currentBytes : Nat) (rows : List OperationRow) :
    Chunked (chunkLoop opBytes ((first ++ [last]).map OperationRow.op) currentBytes last.seq rows)
      (first ++ [last] ++ rows) := by
  induction rows generalizing first last currentBytes with
  | nil =>
      rw [chunkLoop, if_pos (by simp)]
      exact .cons first last .nil
  | cons row rows ih =>
      rw [chunkLoop]
      split_ifs
      · exact .cons first last (ih [] row (opBytes row.op))
      · have extended := ih (first ++ [last]) row (currentBytes + opBytes row.op)
        simp only [List.map_append, List.map_cons, List.map_nil, List.append_assoc,
          List.cons_append, List.nil_append] at extended ⊢
        exact extended

theorem chunkCatchupOperations_spec (opBytes : Operation → Nat) (rangeOps : List OperationRow) :
    Chunked (chunkCatchupOperations opBytes rangeOps) rangeOps := by
  unfold chunkCatchupOperations
  cases rangeOps with
  | nil => exact .nil
  | cons row rows =>
      rw [chunkLoop, if_neg (by simp)]
      exact chunkLoop_spec opBytes [] row (0 + opBytes row.op) rows

theorem Chunked.flatMap {chunks : List (Nat × List Operation)} {rows : List OperationRow}
    (chunked : Chunked chunks rows) : chunks.flatMap Prod.snd = rows.map OperationRow.op := by
  induction chunked with
  | nil => rfl
  | cons first last rest ih =>
      rw [List.flatMap_cons, ih]
      exact List.map_append.symm

/-- A chunk within both limits; a single operation may be larger than the limit on bytes. -/
structure Fits (opBytes : Operation → Nat) (ops : List Operation) : Prop where
  inhabited : ops ≠ []
  few : ops.length ≤ CATCHUP_CHUNK_MAX_OPS
  small : (ops.map opBytes).sum ≤ CATCHUP_CHUNK_MAX_BYTES ∨ ops.length = 1

theorem fits_single (opBytes : Operation → Nat) (op : Operation) : Fits opBytes [op] where
  inhabited := List.cons_ne_nil op []
  few := (by decide : 1 ≤ CATCHUP_CHUNK_MAX_OPS)
  small := Or.inr rfl

/-- The chunk in hand fits, and its bytes are counted. -/
theorem chunkLoop_fits {opBytes : Operation → Nat} {current : List Operation}
    (fits : Fits opBytes current) (seq : Nat) (rows : List OperationRow) :
    ∀ chunk ∈ chunkLoop opBytes current (current.map opBytes).sum seq rows,
      Fits opBytes chunk.2 := by
  induction rows generalizing current seq with
  | nil =>
      intro chunk member
      rw [chunkLoop, if_pos (List.length_pos_of_ne_nil fits.inhabited)] at member
      rwa [List.mem_singleton.mp member]
  | cons row rows ih =>
      intro chunk member
      rw [chunkLoop] at member
      split_ifs at member with full
      · rcases List.mem_cons.mp member with rfl | later
        · exact fits
        · have single := ih (fits_single opBytes row.op) row.seq chunk
          rw [List.map_singleton, List.sum_singleton] at single
          exact single later
      · -- neither limit is reached, so the row fits into the chunk in hand
        have room : current.length < CATCHUP_CHUNK_MAX_OPS ∧
            (current.map opBytes).sum + opBytes row.op ≤ CATCHUP_CHUNK_MAX_BYTES := by
          have := List.length_pos_of_ne_nil fits.inhabited
          omega
        have total : ((current ++ [row.op]).map opBytes).sum =
            (current.map opBytes).sum + opBytes row.op := by simp
        refine ih ⟨?_, ?_, ?_⟩ row.seq chunk (by rwa [total])
        · exact List.append_ne_nil_of_right_ne_nil current (List.cons_ne_nil row.op [])
        · rw [List.length_append, List.length_singleton]
          exact room.1
        · exact Or.inl (total ▸ room.2)

/-- The chunks of a range are its operations in their order, and every chunk is within the limits
and numbered like its last operation. -/
theorem chunks_cover_range (opBytes : Operation → Nat) (rangeOps : List OperationRow) :
    Chunked (chunkCatchupOperations opBytes rangeOps) rangeOps ∧
      (chunkCatchupOperations opBytes rangeOps).flatMap Prod.snd =
        rangeOps.map OperationRow.op ∧
      ∀ chunk ∈ chunkCatchupOperations opBytes rangeOps, Fits opBytes chunk.2 := by
  have chunked := chunkCatchupOperations_spec opBytes rangeOps
  refine ⟨chunked, chunked.flatMap, ?_⟩
  unfold chunkCatchupOperations
  cases rangeOps with
  | nil => exact fun chunk member => nomatch member
  | cons row rows =>
      intro chunk member
      rw [chunkLoop, if_neg (by simp), List.nil_append, Nat.zero_add] at member
      have fits := chunkLoop_fits (fits_single opBytes row.op) row.seq rows chunk
      rw [List.map_singleton, List.sum_singleton] at fits
      exact fits member

end ConfluenceEditor
