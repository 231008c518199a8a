/-
What a typed text and a deletion do to the document.

A text goes into the visible nodes as a whole (`localInsertText_outcome`), and a deletion takes out a
range of them (`localDelete_outcome`). Either of them is refused before anything has changed, or it is
in the engine, also when the socket that is still connecting makes the call throw (`Passed`).
-/

import ConfluenceEditor.Client.Recording
import ConfluenceEditor.Replication.VisibleEdits

namespace ConfluenceEditor

open Engine Throwing

/-- Engines with what engines mint stay so when they are called. -/
theorem Engine.Issued.call {e e' : Engine} (issued : e.Issued) {c : Call} (allowed : c.Issued)
    (called : e.call c = .ok e') : e'.Issued := by
  have ⟨replicaId, reached⟩ := issued
  refine ⟨replicaId, reached.trans ⟨[⟨c, allowed⟩], ?_⟩⟩
  rw [Run.run, called]
  rfl

namespace SyncClient

variable {c : SyncClient} {e : Engine}

/-! ### Refusals -/

/-- The message of a `NoWriteAccessError`. -/
def noWriteAccess : String :=
  "SyncClient: this session's current role does not permit mutating operations"

/-- The message of an `OfflineWindowExceededError`. -/
def offlineWindowExceeded : String :=
  "SyncClient: the offline window has been exceeded (10 minutes or 2,000 operations " ++
    "since last synced) — no further local edits are accepted until reconnected. " ++
    "API Spec §5.5/§10.5."

/-- `err instanceof OfflineWindowExceededError || err instanceof NoWriteAccessError`. -/
def isRefusal (message : String) : Bool :=
  message == offlineWindowExceeded || message == noWriteAccess

theorem isRefusal_stillConnecting : isRefusal stillConnecting = false := by decide

theorem openForEdit_refused (resident : c.engine = some e) {nowMs : Nat}
    (refused : ¬ c.Admits nowMs) :
    ∃ message, (openForEdit nowMs).run c = .error message c ∧ isRefusal message = true := by
  have engine : requireEngine.run c = .ok e c := by
    rw [requireEngine, run_get_bind, resident]
    rfl
  unfold openForEdit
  rw [run_bind_of_ok engine]
  by_cases write : c.mayWrite = true
  · have closed : ¬ c.offlineWindow.canAccept nowMs = true := fun window => refused ⟨write, window⟩
    have passed : assertHasWriteAccess.run c = .ok () c := by
      rw [assertHasWriteAccess, run_get_bind, write]
      rfl
    rw [run_bind_of_ok passed]
    refine ⟨offlineWindowExceeded, run_bind_of_error ?_ _, ?_⟩
    · rw [assertOfflineWindowNotExceeded, run_get_bind, Bool.eq_false_iff.mpr closed]
      rfl
    · rw [isRefusal, beq_self_eq_true, Bool.true_or]
  · refine ⟨noWriteAccess, run_bind_of_error ?_ _, ?_⟩
    · rw [assertHasWriteAccess, run_get_bind, Bool.eq_false_iff.mpr write]
      rfl
    · rw [isRefusal, beq_self_eq_true, Bool.or_true]

theorem openForEdit_admits (resident : c.engine = some e) {nowMs : Nat} (admits : c.Admits nowMs) :
    (openForEdit nowMs).run c = .ok e c := by
  rcases openForEdit_cases c nowMs with ⟨e', same, _, opened⟩ | ⟨stopped, _⟩
  · cases resident.symm.trans same
    exact opened
  · exact absurd ⟨⟨e, resident⟩, admits⟩ stopped

/-! ### Edits that are let through -/

/-- The call returned, or threw because the socket was still connecting. -/
def Passed {α : Type} (outcome : EStateM.Result String SyncClient α) (c' : SyncClient) : Prop :=
  (∃ a, outcome = .ok a c') ∨ outcome = .error stillConnecting c'

theorem Passed.returning {α β : Type} {x : Method α} {c' : SyncClient} (passed : Passed (x.run c) c')
    (b : β) : Passed ((x >>= fun _ => pure b).run c) c' := by
  rcases passed with ⟨a, ran⟩ | threw
  · exact Or.inl ⟨b, run_bind_of_ok ran _⟩
  · exact Or.inr (run_bind_of_error threw _)

theorem passed_sendFrame (ops : List Operation) (c : SyncClient) :
    ∃ c', Passed ((sendFrame ops).run c) c' ∧ c'.engine = c.engine := by
  by_cases connecting : c.ws = some .CONNECTING
  · exact ⟨c, Or.inr (sendFrame_connecting connecting ops), rfl⟩
  · exact ⟨c.transmit ops, Or.inl ⟨(), sendFrame_ok connecting ops⟩, transmit_engine c ops⟩

/-- A loop of sends, of which one may cut the others off. -/
theorem passed_forM {α : Type} {f : α → Method PUnit}
    (each : ∀ a c, ∃ c', Passed ((f a).run c) c' ∧ c'.engine = c.engine) (as : List α)
    (c : SyncClient) : ∃ c', Passed ((as.forM f).run c) c' ∧ c'.engine = c.engine := by
  induction as generalizing c with
  | nil => exact ⟨c, Or.inl ⟨⟨⟩, rfl⟩, rfl⟩
  | cons a as ih =>
      have ⟨c₁, first, engine⟩ := each a c
      rcases first with ⟨_, ran⟩ | threw
      · have ⟨c', rest, same⟩ := ih c₁
        refine ⟨c', ?_, same.trans engine⟩
        show Passed ((f a >>= fun _ => as.forM f).run c) c'
        rwa [run_bind_of_ok ran]
      · exact ⟨c₁, Or.inr (run_bind_of_error threw _), engine⟩

/-- One insertion into the visible nodes. -/
theorem localInsert_visible (issued : e.Issued) {k : Nat} (inside : k ≤ e.visible.length)
    (value : Nat) (bind : Bool) :
    ∃ op e', e.localInsert k value bind = .ok (op, e') ∧ e'.Issued ∧
      e'.visible = e.visible.take k ++ op.toNode :: e.visible.drop k ∧ op.value = value := by
  have ⟨op, e', object, inserted⟩ := issued.localInsert k inside value bind
  have ran : e.localInsert k value bind = .ok (op, e') := by
    rw [localInsert_eq, object]
    rfl
  have called : e.call (.edit (.insert k value bind)) = .ok e' := by
    rw [Engine.call, Engine.edit, ran]
    rfl
  have allowed : (Call.edit (.insert k value bind)).Issued := trivial
  have spliced := insertIdx_append (e.visible.take k) (e.visible.drop k) op.toNode
  rw [List.take_append_drop, List.length_take_of_le inside] at spliced
  exact ⟨op, e', ran, issued.call allowed called, inserted.visible.trans spliced, inserted.value⟩

theorem mintText_visible (isClusterContinuing : Nat → Bool) (text : List Nat)
    (resident : c.engine = some e) (issued : e.Issued) {k : Nat} (inside : k ≤ e.visible.length) :
    ∃ ops e' offlineWindow new, (mintText isClusterContinuing e k text).run c =
        .ok ops { c with engine := some e', offlineWindow } ∧ e'.Issued ∧
      e'.visible = e.visible.take k ++ new ++ e.visible.drop k ∧ new.map Node.value = text := by
  induction text generalizing c e k with
  | nil =>
      refine ⟨[], e, c.offlineWindow, [], ?_, issued, ?_, rfl⟩
      · rw [← resident]
        rfl
      · rw [List.append_nil, List.take_append_drop]
  | cons codePoint text ih =>
      have ⟨op, e₁, minted, issued₁, visible, value⟩ :=
        localInsert_visible issued inside codePoint (isClusterContinuing codePoint)
      have length : (e.visible.take k).length = k := List.length_take_of_le inside
      have inside₁ : k + 1 ≤ e₁.visible.length := by
        rw [visible, List.length_append, List.length_cons, length]
        omega
      have ⟨ops, e', offlineWindow, new, ran, issued', visible', values⟩ :=
        ih (c := (c.setEngine e₁).noteOperationAccepted) rfl issued₁ inside₁
      refine ⟨op :: ops, e', offlineWindow, op.toNode :: new, ?_, issued', ?_, ?_⟩
      · rw [mintText, minted, run_bind_of_ok (run_ofEngine_ok (op, e₁) c), run_modify_bind]
        exact run_bind_of_ok ran _
      · have front : e₁.visible.take (k + 1) = e.visible.take k ++ [op.toNode] := by
          rw [visible, List.append_cons]
          exact List.take_left' (by rw [List.length_append, length, List.length_singleton])
        have behind : e₁.visible.drop (k + 1) = e.visible.drop k := by
          rw [visible, List.append_cons]
          exact List.drop_left' (by rw [List.length_append, length, List.length_singleton])
        rw [visible', front, behind, List.append_assoc (e.visible.take k), List.singleton_append]
      · rw [List.map_cons, values, ← value]
        rfl

/-- A text is refused, or it is put into the document as a whole. -/
theorem localInsertText_outcome (isClusterContinuing : Nat → Bool) (nowMs : Nat)
    (resident : c.engine = some e) (issued : e.Issued) {k : Nat} (inside : k ≤ e.visible.length)
    (text : List Nat) :
    (¬ c.Admits nowMs ∧ ∃ message, isRefusal message = true ∧
        (localInsertText isClusterContinuing nowMs k text).run c = .error message c) ∨
      (c.Admits nowMs ∧ ∃ e' new c',
        Passed ((localInsertText isClusterContinuing nowMs k text).run c) c' ∧
        c'.engine = some e' ∧ e'.Issued ∧
        e'.visible = e.visible.take k ++ new ++ e.visible.drop k ∧ new.map Node.value = text) := by
  by_cases admits : c.Admits nowMs
  · obtain ⟨ops, e', offlineWindow, new, minted, issued', visible, values⟩ :=
      mintText_visible isClusterContinuing text resident issued inside
    set c₁ : SyncClient := { c with engine := some e', offlineWindow } with hc₁
    obtain ⟨engine, _⟩ := queue_all ops c₁
    set c₂ := ops.foldl (fun c op => c.record (.insert op)) c₁ with hc₂
    have queued : (ops.forM fun op => (modify fun c => c.record (.insert op) :
        Method PUnit)).run c₁ = .ok ⟨⟩ c₂ :=
      run_forM_of_ok (P := fun _ => True) (fun _ _ _ => ⟨rfl, trivial⟩) ops trivial
    obtain ⟨c', sent, same⟩ := passed_forM (f := fun frame : List InsertOperation =>
      sendFrame (frame.map .insert)) (fun frame c => passed_sendFrame (frame.map .insert) c)
        (operationsToRunMessages ops) c₂
    refine Or.inr ⟨admits, e', new, c', ?_, same.trans engine, issued', visible, values⟩
    rw [localInsertText, run_bind_of_ok (openForEdit_admits resident admits), run_bind_of_ok minted,
      run_bind_of_ok queued]
    exact sent.returning ops
  · obtain ⟨message, stopped, refusal⟩ := openForEdit_refused resident admits
    exact Or.inl ⟨admits, message, refusal, run_bind_of_error stopped _⟩

/-- A deletion is refused, or it takes the range out of the document. -/
theorem localDelete_outcome (nowMs : Nat) (resident : c.engine = some e) (issued : e.Issued)
    (k count : Nat) :
    (¬ c.Admits nowMs ∧ ∃ message, isRefusal message = true ∧
        (localDelete nowMs k count).run c = .error message c) ∨
      (c.Admits nowMs ∧ ∃ e' c', Passed ((localDelete nowMs k count).run c) c' ∧
        c'.engine = some e' ∧ e'.Issued ∧
        e'.visible = e.visible.take k ++ e.visible.drop (k + count)) := by
  by_cases admits : c.Admits nowMs
  · obtain ⟨ops, e', deleted, removed⟩ := issued.spec.1.localDelete k count
    have called : e.call (.edit (.delete k count)) = .ok e' := by
      rw [Engine.call, Engine.edit, deleted]
      rfl
    have allowed : (Call.edit (.delete k count)).Issued := trivial
    obtain ⟨c', sent, same⟩ := passed_forM (f := fun op : DeleteOperation => do
        modify noteOperationAccepted
        sendOperation (.delete op)) (fun op c =>
      passed_sendFrame [.delete op] (c.noteOperationAccepted.record (.delete op))) ops
        (c.setEngine e')
    refine Or.inr ⟨admits, e', c', ?_, same, issued.call allowed called, removed.visible⟩
    rw [localDelete, run_bind_of_ok (openForEdit_admits resident admits), deleted,
      run_bind_of_ok (run_ofEngine_ok (ops, e') c)]
    exact sent.returning ops
  · obtain ⟨message, stopped, refusal⟩ := openForEdit_refused resident admits
    exact Or.inl ⟨admits, message, refusal, run_bind_of_error stopped _⟩

end SyncClient

end ConfluenceEditor
