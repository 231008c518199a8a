/-
Operations and the messages that carry them.

A client puts the operations that it mints into as few messages as possible: neighbouring inserts
that form the chain of a run share one message, and so do neighbouring deletes with consecutive
counters. The receiver expands each message again, with a function of another package.
`operationsToWireMessages_lossless` says that nothing is lost between the two. The frames of
`Client.SyncClient` and `Client.Handshake`, which are lists of operations, are the expanded messages:
`map_toOperations_typed` and `map_toOperations_operationsToWireMessages`.

The counters are natural numbers, as everywhere in the engine: up to `Number.MAX_SAFE_INTEGER`, which
is all that a frame can hold, the additions of the source are exact.
-/

import ConfluenceEditor.Client.Handshake
import Mathlib.Data.List.SplitBy

namespace ConfluenceEditor

namespace WireHelpers

open SyncClient (continuesRun)

/-! ### From operations to messages -/

/-- The message of one operation. Its number is left to the server. -/
def operationToOpsMessage : Operation → OpsMessage
  | .insert op => .opInsert op
  | .delete op => .opDelete op
  | .undelete op => .opUndelete op

/-- The message of a group of inserts: a run, unless there is only one. No group is empty. -/
def runMessage : List InsertOperation → List OpsMessage
  | [] => []
  | [op] => [.opInsert op]
  | first :: group =>
      [.opInsertRun first.id first.parent first.side first.bind
        ((first :: group).map InsertOperation.value)]

def operationsToRunMessages (ops : List InsertOperation) : List OpsMessage :=
  (ops.splitBy fun prev next => continuesRun next prev).flatMap runMessage

/-- `next` is the next delete of the same replica. The source compares the replica with the one of
the group's first delete, which all of the group share. -/
def continuesBatch (prev next : DeleteOperation) : Bool :=
  decide (next.id.r = prev.id.r) && decide (next.id.c = prev.id.c + 1)

/-- The message of a group of deletes: a batch, unless there is only one. No group is empty. -/
def batchMessage : List DeleteOperation → List OpsMessage
  | [] => []
  | [op] => [.opDelete op]
  | first :: group =>
      [.opDeleteBatch first.id.c first.id.r ((first :: group).map DeleteOperation.target)]

def deleteOperationsToMessages (ops : List DeleteOperation) : List OpsMessage :=
  (ops.splitBy continuesBatch).flatMap batchMessage

/-- Whether two operations have the same `kind`. -/
def sameKind : Operation → Operation → Bool
  | .insert _, .insert _ => true
  | .delete _, .delete _ => true
  | .undelete _, .undelete _ => true
  | _, _ => false

/-- The inserts of a group that holds nothing else: the cast of the source. -/
def inserts (group : List Operation) : List InsertOperation :=
  group.filterMap fun op => match op with
    | .insert op => some op
    | _ => none

/-- The deletes of a group that holds nothing else. -/
def deletes (group : List Operation) : List DeleteOperation :=
  group.filterMap fun op => match op with
    | .delete op => some op
    | _ => none

/-- The messages of a group of operations of one kind, told by its first. Undeletes are not
coalesced. -/
def groupMessages : List Operation → List OpsMessage
  | [] => []
  | .insert op :: group => operationsToRunMessages (inserts (.insert op :: group))
  | .delete op :: group => deleteOperationsToMessages (deletes (.delete op :: group))
  | .undelete op :: group => (Operation.undelete op :: group).map operationToOpsMessage

def operationsToWireMessages (ops : List Operation) : List OpsMessage :=
  (ops.splitBy sameKind).flatMap groupMessages

/-! ### Expanding a group -/

section Groups

variable {α β : Type} {r s : α → α → Bool}

theorem splitBy_map (f : α → β) (r : β → β → Bool) (l : List α) :
    (l.map f).splitBy r = (l.splitBy fun a b => r (f a) (f b)).map (List.map f) := by
  apply List.splitBy_eq_iff.mpr
  refine ⟨?_, ?_, ?_, ?_⟩
  · rw [← List.map_flatten, List.flatten_splitBy]
  · intro member
    have ⟨group, split, empty⟩ := List.mem_map.mp member
    exact List.ne_nil_of_mem_splitBy split (List.map_eq_nil_iff.mp empty)
  · intro group member
    have ⟨split, part, image⟩ := List.mem_map.mp member
    rw [← image, List.isChain_map]
    exact List.isChain_of_mem_splitBy part
  · rw [List.isChain_map]
    apply (List.isChain_getLast_head_splitBy (fun a b => r (f a) (f b)) l).imp
    intro a b gap
    have ⟨left, right, apart⟩ := gap
    refine ⟨mt List.map_eq_nil_iff.mp left, mt List.map_eq_nil_iff.mp right, ?_⟩
    rw [List.getLast_map, List.head_map]
    exact apart

/-- Splitting by a coarse relation first changes nothing: it cuts only where the fine one cuts. -/
theorem flatMap_splitBy_splitBy (finer : ∀ a b, r a b = true → s a b = true) (l : List α) :
    (l.splitBy s).flatMap (List.splitBy r) = l.splitBy r := by
  have pieces : ∀ groups : List (List α), [] ∉ groups →
      (groups.IsChain fun a b => ∃ ha hb, s (a.getLast ha) (b.head hb) = false) →
      groups.flatMap (List.splitBy r) = groups.flatten.splitBy r := by
    intro groups full gaps
    induction groups with
    | nil => rfl
    | cons group groups ih =>
        have ⟨here, later⟩ := List.isChain_cons.mp gaps
        have rest := ih (fun member => full (List.mem_cons_of_mem _ member)) later
        rw [List.flatMap_cons, List.flatten_cons, rest]
        symm
        apply List.splitBy_append
        intro a last b first
        cases groups with
        | nil => cases first
        | cons next groups =>
            have ⟨ha, hb, apart⟩ := here next rfl
            have isLast : group.getLast ha = a := List.getLast_of_mem_getLast? last
            have isFirst : next.head hb = b := by
              apply List.head_of_mem_head?
              rw [List.flatten_cons, List.head?_append_of_ne_nil _ hb] at first
              exact first
            rw [isLast, isFirst] at apart
            by_contra joined
            rw [finer a b (Bool.eq_true_of_not_eq_false joined)] at apart
            cases apart
  have split := pieces (l.splitBy s) (List.nil_notMem_splitBy s l)
    (List.isChain_getLast_head_splitBy s l)
  rw [split, List.flatten_splitBy]

end Groups

theorem toOperations_operationToOpsMessage (op : Operation) :
    toOperations (operationToOpsMessage op) = [op] := by
  cases op with
  | insert op => rfl
  | delete op => rfl
  | undelete op => rfl

theorem identifier_eq_iff {id : Identifier} {c r : Nat} : id = ⟨c, r⟩ ↔ id.r = r ∧ id.c = c := by
  cases id with
  | mk c' r' => rw [Identifier.mk.injEq, and_comm]

theorem continuesRun_iff {next prev : InsertOperation} : continuesRun next prev = true ↔
    next.bind = prev.bind ∧ next.parent = some prev.id ∧ next.side = .R ∧
      next.id = ⟨prev.id.c + 1, prev.id.r⟩ := by
  simp only [continuesRun, Bool.and_eq_true, decide_eq_true_eq, identifier_eq_iff, and_assoc]

theorem continuesBatch_iff {prev next : DeleteOperation} : continuesBatch prev next = true ↔
    next.id = ⟨prev.id.c + 1, prev.id.r⟩ := by
  simp only [continuesBatch, Bool.and_eq_true, decide_eq_true_eq, identifier_eq_iff]

/-- The expansion of a run rebuilds the chain that the grouping looked for. -/
theorem expandInsertRun_chain (first : InsertOperation) (group : List InsertOperation)
    (chain : (first :: group).IsChain fun prev next => continuesRun next prev = true) :
    expandInsertRun first.id first.parent first.side first.bind
      ((first :: group).map InsertOperation.value) = first :: group := by
  induction group generalizing first with
  | nil => rfl
  | cons next group ih =>
      rw [List.isChain_cons_cons] at chain
      have ⟨bind, parent, side, id⟩ := continuesRun_iff.mp chain.1
      have rest := ih next chain.2
      rw [bind, parent, side, id] at rest
      rw [List.map_cons, expandInsertRun, rest]

theorem expandDeleteBatch_chain (first : DeleteOperation) (group : List DeleteOperation)
    (chain : (first :: group).IsChain fun prev next => continuesBatch prev next = true) :
    expandDeleteBatch first.id.c first.id.r ((first :: group).map DeleteOperation.target) =
      first :: group := by
  induction group generalizing first with
  | nil => rfl
  | cons next group ih =>
      rw [List.isChain_cons_cons] at chain
      have id := continuesBatch_iff.mp chain.1
      have rest := ih next chain.2
      rw [id] at rest
      rw [List.map_cons, expandDeleteBatch, rest]

theorem toOperations_runMessage {group : List InsertOperation} (nonempty : group ≠ [])
    (chain : group.IsChain fun prev next => continuesRun next prev = true) :
    (runMessage group).map toOperations = [group.map .insert] := by
  match group with
  | [] => exact absurd rfl nonempty
  | [op] => rfl
  | first :: next :: group =>
      show [toOperations (.opInsertRun ..)] = _
      rw [toOperations, expandInsertRun_chain first (next :: group) chain]

theorem toOperations_batchMessage {group : List DeleteOperation} (nonempty : group ≠ [])
    (chain : group.IsChain fun prev next => continuesBatch prev next = true) :
    (batchMessage group).map toOperations = [group.map .delete] := by
  match group with
  | [] => exact absurd rfl nonempty
  | [op] => rfl
  | first :: next :: group =>
      show [toOperations (.opDeleteBatch ..)] = _
      rw [toOperations, expandDeleteBatch_chain first (next :: group) chain]

/-! ### Expanding all of them -/

section Runs

variable {α : Type} {r : α → α → Bool}

theorem map_toOperations_groups {message : List α → List OpsMessage} {one : α → Operation}
    (each : ∀ group, group ≠ [] → (group.IsChain fun a b => r a b = true) →
      (message group).map toOperations = [group.map one]) (l : List α) :
    ((l.splitBy r).flatMap message).map toOperations = (l.splitBy r).map (List.map one) := by
  rw [List.map_flatMap, List.map_eq_flatMap]
  apply List.flatMap_congr
  intro group member
  exact each group (List.ne_nil_of_mem_splitBy member) (List.isChain_of_mem_splitBy member)

end Runs

theorem map_toOperations_operationsToRunMessages (ops : List InsertOperation) :
    (operationsToRunMessages ops).map toOperations =
      (ops.map Operation.insert).splitBy ConnectedClient.continuesFrame := by
  rw [splitBy_map]
  exact map_toOperations_groups (fun _ nonempty chain => toOperations_runMessage nonempty chain) ops

/-- The frames of typed text, which are found from the end of the list, are the maximal runs. -/
theorem operationsToRunMessages_eq_splitBy (ops : List InsertOperation) :
    SyncClient.operationsToRunMessages ops =
      ops.splitBy fun prev next => continuesRun next prev := by
  induction ops with
  | nil => rfl
  | cons op ops ih =>
      have ⟨flat, full, chains, gaps⟩ := List.splitBy_eq_iff.mp ih.symm
      rw [SyncClient.operationsToRunMessages]
      split
      · next next run frames split =>
          rw [split] at flat full chains gaps
          by_cases joined : continuesRun next op
          · rw [if_pos joined]
            symm
            apply List.splitBy_eq_iff.mpr
            refine ⟨by rw [flat]; rfl, ?_, ?_, ?_⟩
            · intro member
              rcases List.mem_cons.mp member with empty | later
              · cases empty
              · exact full (List.mem_cons_of_mem _ later)
            · intro group member
              rcases List.mem_cons.mp member with rfl | later
              · exact List.isChain_cons_cons.mpr ⟨joined, chains _ List.mem_cons_self⟩
              · exact chains group (List.mem_cons_of_mem _ later)
            · cases frames with
              | nil => exact List.isChain_singleton _
              | cons frame frames =>
                  rw [List.isChain_cons_cons] at gaps
                  have ⟨⟨ha, hb, apart⟩, later⟩ := gaps
                  refine List.isChain_cons_cons.mpr ⟨⟨List.cons_ne_nil _ _, hb, ?_⟩, later⟩
                  rw [List.getLast_cons ha]
                  exact apart
          · rw [if_neg joined, ← split, ih, flat]
            symm
            apply List.splitBy_append_cons (l := [op])
            intro x last
            cases Option.some.inj last
            exact Bool.eq_false_iff.mpr joined
      · next frames other =>
          cases split : SyncClient.operationsToRunMessages ops with
          | nil =>
              rw [split] at flat
              rw [flat]
              rfl
          | cons frame later =>
              cases frame with
              | nil => exact absurd List.mem_cons_self (split ▸ full)
              | cons next run => exact absurd split (other next run later)

/-- The frames of typed text are the messages of the source, expanded. -/
theorem map_toOperations_typed (ops : List InsertOperation) :
    (operationsToRunMessages ops).map toOperations =
      (SyncClient.operationsToRunMessages ops).map (List.map .insert) := by
  rw [map_toOperations_operationsToRunMessages, operationsToRunMessages_eq_splitBy]
  exact splitBy_map ..

theorem map_toOperations_deleteOperationsToMessages (ops : List DeleteOperation) :
    (deleteOperationsToMessages ops).map toOperations =
      (ops.map Operation.delete).splitBy ConnectedClient.continuesFrame := by
  rw [splitBy_map]
  exact map_toOperations_groups (fun _ nonempty chain => toOperations_batchMessage nonempty chain)
    ops

theorem map_insert_inserts (op : InsertOperation) (group : List Operation)
    (chain : (Operation.insert op :: group).IsChain fun a b => sameKind a b = true) :
    (inserts (.insert op :: group)).map .insert = .insert op :: group := by
  induction group generalizing op with
  | nil => rfl
  | cons next group ih =>
      rw [List.isChain_cons_cons] at chain
      cases next with
      | insert next => exact congrArg (Operation.insert op :: ·) (ih next chain.2)
      | delete next => cases chain.1
      | undelete next => cases chain.1

theorem map_delete_deletes (op : DeleteOperation) (group : List Operation)
    (chain : (Operation.delete op :: group).IsChain fun a b => sameKind a b = true) :
    (deletes (.delete op :: group)).map .delete = .delete op :: group := by
  induction group generalizing op with
  | nil => rfl
  | cons next group ih =>
      rw [List.isChain_cons_cons] at chain
      cases next with
      | insert next => cases chain.1
      | delete next => exact congrArg (Operation.delete op :: ·) (ih next chain.2)
      | undelete next => cases chain.1

/-- No frame joins an undelete to anything. -/
theorem splitBy_undeletes (op : UndeleteOperation) (group : List Operation)
    (chain : (Operation.undelete op :: group).IsChain fun a b => sameKind a b = true) :
    (Operation.undelete op :: group).splitBy ConnectedClient.continuesFrame =
      (Operation.undelete op :: group).map fun op => [op] := by
  induction group generalizing op with
  | nil => rfl
  | cons next group ih =>
      rw [List.isChain_cons_cons] at chain
      cases next with
      | insert next => cases chain.1
      | delete next => cases chain.1
      | undelete next =>
          have apart : ([Operation.undelete op] ++ .undelete next :: group).splitBy
              ConnectedClient.continuesFrame = [[Operation.undelete op]] ++
                (Operation.undelete next :: group).splitBy ConnectedClient.continuesFrame := by
            apply List.splitBy_append_cons
            intro x last
            cases Option.some.inj last
            rfl
          rw [List.map_cons, ← ih next chain.2]
          exact apart

/-- The messages of a group carry the frames that the group splits into. -/
theorem map_toOperations_groupMessages {group : List Operation} (nonempty : group ≠ [])
    (chain : group.IsChain fun a b => sameKind a b = true) :
    (groupMessages group).map toOperations = group.splitBy ConnectedClient.continuesFrame := by
  match group with
  | [] => exact absurd rfl nonempty
  | .insert op :: group =>
      rw [groupMessages, map_toOperations_operationsToRunMessages, map_insert_inserts op group chain]
  | .delete op :: group =>
      rw [groupMessages, map_toOperations_deleteOperationsToMessages,
        map_delete_deletes op group chain]
  | .undelete op :: group =>
      rw [groupMessages, splitBy_undeletes op group chain, List.map_map]
      apply List.map_congr_left
      intro op member
      exact toOperations_operationToOpsMessage op

theorem sameKind_of_continuesFrame (prev next : Operation)
    (joined : ConnectedClient.continuesFrame prev next = true) : sameKind prev next = true := by
  cases prev <;> cases next <;> first | rfl | cases joined

/-- The frames of a reconciliation are the messages of the source, expanded. -/
theorem map_toOperations_operationsToWireMessages (ops : List Operation) :
    (operationsToWireMessages ops).map toOperations =
      ConnectedClient.operationsToWireMessages ops := by
  rw [operationsToWireMessages, ConnectedClient.operationsToWireMessages,
    ← flatMap_splitBy_splitBy sameKind_of_continuesFrame ops, List.map_flatMap]
  apply List.flatMap_congr
  intro group member
  exact map_toOperations_groupMessages (List.ne_nil_of_mem_splitBy member)
    (List.isChain_of_mem_splitBy member)

/-- Expanding the messages of a list of operations gives the list back. -/
theorem operationsToWireMessages_lossless (ops : List Operation) :
    (operationsToWireMessages ops).flatMap toOperations = ops := by
  rw [List.flatMap_def, map_toOperations_operationsToWireMessages,
    ConnectedClient.operationsToWireMessages, List.flatten_splitBy]

end WireHelpers

end ConfluenceEditor
