/-
Which edits a call leaves in the unacknowledged queue.

A call either stops at a gate, or the engine mints some operations and the client queues them. An
insert, a text, an undo and a redo are queued whole before the first frame is sent. `localDelete`
queues and sends its operations one by one although the engine has applied them all, so a `send` that
throws cuts the rest off: `perform_recorded_iff` says that this is the only way to lose an edit.
-/

import ConfluenceEditor.Client.SyncClient
import ConfluenceEditor.Engine.Sound

namespace ConfluenceEditor

open Engine Throwing

theorem mem_ids_setEntry {entries : List Operation} {op : Operation} {id : Identifier} :
    id ∈ (setEntry entries op).map Operation.id ↔ id ∈ entries.map Operation.id ∨ id = op.id := by
  unfold setEntry
  split_ifs with known
  · -- the replaced entry keeps its key
    have keys : (entries.map fun o => if o.id = op.id then op else o).map Operation.id =
        entries.map Operation.id := by
      rw [List.map_map]
      refine List.map_congr_left fun o _ => ?_
      by_cases same : o.id = op.id <;> simp [same]
    rw [keys]
    refine ⟨Or.inl, ?_⟩
    rintro (old | rfl)
    · exact old
    · obtain ⟨o, member, same⟩ := List.any_eq_true.mp known
      exact List.mem_map.mpr ⟨o, member, by simpa using same⟩
  · simp

namespace SyncClient

/-- The identifiers in the unacknowledged queue. -/
def queued (c : SyncClient) : List Identifier := UnackedQueue.ids c.unacked

/-- Everything that the engine applied since `c` is queued. -/
def Recorded (c c' : SyncClient) : Prop :=
  ∀ e', c'.engine = some e' → ∀ id ∈ e'.applied,
    (∀ e, c.engine = some e → id ∉ e.applied) → id ∈ c'.queued

/-- The engine is sound and its next identifiers are not in the queue. -/
structure Sound (c : SyncClient) : Prop where
  engine : ∀ e, c.engine = some e → e.Sound
  queue : ∀ e, c.engine = some e → ∀ id ∈ c.queued, id.r = e.replicaId → id.c ≤ e.clock

/-- The engine minted the operations `ids`, and those in `kept` were queued. -/
structure Edited (c c' : SyncClient) (e : Engine) (ids kept : List Identifier) : Prop where
  before : c.engine = some e
  minted : ∃ e', c'.engine = some e' ∧ Mints e e' ids
  queued : ∀ id, id ∈ c'.queued ↔ id ∈ c.queued ∨ id ∈ kept
  subset : kept ⊆ ids

section Edited

variable {c c' : SyncClient} {e : Engine} {ids kept : List Identifier}

theorem Sound.edited (sound : c.Sound) (edited : Edited c c' e ids kept) : c'.Sound := by
  obtain ⟨e', after, mints⟩ := edited.minted
  refine ⟨fun e₁ same => ?_, fun e₁ same id member own => ?_⟩
  · obtain rfl := Option.some.inj (after.symm.trans same)
    exact mints.sound
  · obtain rfl := Option.some.inj (after.symm.trans same)
    rcases (edited.queued id).mp member with old | new
    · rw [mints.replicaId] at own
      exact le_trans (sound.queue e edited.before id old own) mints.clock
    · exact mints.sound.clock id ((mints.applied id).mpr (Or.inr (edited.subset new)))

/-- When everything that was minted is kept, everything is recorded. -/
theorem Edited.recorded (edited : Edited c c' e ids kept) (all : ids ⊆ kept) : Recorded c c' := by
  obtain ⟨e', after, mints⟩ := edited.minted
  intro e₁ same id member new
  obtain rfl := Option.some.inj (after.symm.trans same)
  rcases (mints.applied id).mp member with old | minted
  · exact absurd old (new e edited.before)
  · exact (edited.queued id).mpr (Or.inr (all minted))

/-- Recording means that everything minted was kept. -/
theorem Edited.recorded_iff (edited : Edited c c' e ids kept) (sound : c.Sound) :
    Recorded c c' ↔ ids ⊆ kept := by
  obtain ⟨e', after, mints⟩ := edited.minted
  constructor
  · intro recorded id member
    have fresh := mints.fresh id member
    have new : id ∈ c'.queued := by
      refine recorded e' after id ((mints.applied id).mpr (Or.inr member)) fun e₁ same known => ?_
      obtain rfl := Option.some.inj (edited.before.symm.trans same)
      have := (sound.engine e same).clock id known
      omega
    rcases (edited.queued id).mp new with old | inside
    · have := sound.queue e edited.before id old fresh.1
      omega
    · exact inside
  · exact edited.recorded

end Edited

/-! ### Queueing and sending -/

theorem mem_queued_record {c : SyncClient} {op : Operation} {id : Identifier} :
    id ∈ (c.record op).queued ↔ id ∈ c.queued ∨ id = op.id := mem_ids_setEntry

@[simp] theorem transmit_engine (c : SyncClient) (ops : List Operation) :
    (c.transmit ops).engine = c.engine := by
  unfold transmit
  split_ifs <;> rfl

@[simp] theorem transmit_unacked (c : SyncClient) (ops : List Operation) :
    (c.transmit ops).unacked = c.unacked := by
  unfold transmit
  split_ifs <;> rfl

@[simp] theorem transmit_ws (c : SyncClient) (ops : List Operation) :
    (c.transmit ops).ws = c.ws := by
  unfold transmit
  split_ifs <;> rfl

theorem sendFrame_connecting {c : SyncClient} (connecting : c.ws = some .CONNECTING)
    (ops : List Operation) : (sendFrame ops).run c = .error stillConnecting c := by
  rw [sendFrame, run_get_bind, if_pos connecting]
  rfl

theorem sendFrame_ok {c : SyncClient} (ready : c.ws ≠ some .CONNECTING) (ops : List Operation) :
    (sendFrame ops).run c = .ok () (c.transmit ops) := by
  rw [sendFrame, run_get_bind, if_neg ready]
  rfl

/-- Sending changes neither the engine nor the queue. -/
theorem keeps_sendFrame (engine : Option Engine) (queue ops : List Operation) :
    Keeps (fun c => c.engine = engine ∧ c.unacked = queue) (sendFrame ops) := by
  intro c same
  by_cases connecting : c.ws = some .CONNECTING
  · rw [sendFrame_connecting connecting]
    exact same
  · rw [sendFrame_ok connecting]
    simpa using same

/-- An operation is queued before it is sent. -/
theorem sendOperation_state (op : Operation) (c : SyncClient) :
    (stateOf ((sendOperation op).run c)).engine = c.engine ∧
      (stateOf ((sendOperation op).run c)).unacked = (c.record op).unacked :=
  keeps_sendFrame c.engine (c.record op).unacked [op] (c.record op) ⟨rfl, rfl⟩

/-- Minting one operation and sending it. -/
theorem edited_of_sendOperation {c : SyncClient} {e e' : Engine} {op : Operation}
    (before : c.engine = some e) (mints : Mints e e' [op.id]) :
    Edited c (stateOf ((sendOperation op).run (c.setEngine e').noteOperationAccepted)) e [op.id]
      [op.id] := by
  obtain ⟨engine, queue⟩ := sendOperation_state op (c.setEngine e').noteOperationAccepted
  refine ⟨before, ⟨e', engine, mints⟩, fun id => ?_, List.Subset.refl _⟩
  rw [queued, queue, List.mem_singleton]
  exact mem_queued_record

/-! ### The gates -/

/-- All gates let an edit through. -/
def Admits (c : SyncClient) (nowMs : Nat) : Prop :=
  c.mayWrite = true ∧ c.offlineWindow.canAccept nowMs = true

instance (c : SyncClient) (nowMs : Nat) : Decidable (c.Admits nowMs) :=
  inferInstanceAs (Decidable (_ ∧ _))

/-- A call gets the resident engine, or stops with nothing changed. -/
theorem openForEdit_cases (c : SyncClient) (nowMs : Nat) :
    (∃ e, c.engine = some e ∧ c.Admits nowMs ∧ (openForEdit nowMs).run c = .ok e c) ∨
      (¬ ((∃ e, c.engine = some e) ∧ c.Admits nowMs) ∧
        ∃ message, (openForEdit nowMs).run c = .error message c) := by
  unfold openForEdit
  cases resident : c.engine with
  | none =>
      exact Or.inr ⟨by simp, _,
        run_bind_of_error (by rw [requireEngine, run_get_bind, resident]; rfl) _⟩
  | some e =>
      have engine : requireEngine.run c = .ok e c := by
        rw [requireEngine, run_get_bind, resident]
        rfl
      rw [run_bind_of_ok engine]
      unfold Admits assertHasWriteAccess assertOfflineWindowNotExceeded
      cases write : c.mayWrite with
      | false => exact Or.inr ⟨by simp, _, run_bind_of_error (by rw [run_get_bind, write]; rfl) _⟩
      | true =>
          have passed : (do unless (← get).mayWrite do
              throw "SyncClient: this session's current role does not permit mutating operations" :
              Method Unit).run c = .ok () c := by
            rw [run_get_bind, write]
            rfl
          rw [run_bind_of_ok passed]
          cases window : c.offlineWindow.canAccept nowMs with
          | false =>
              exact Or.inr ⟨by simp, _, run_bind_of_error (by rw [run_get_bind, window]; rfl) _⟩
          | true =>
              exact Or.inl ⟨e, rfl, by simp, run_bind_of_ok (by rw [run_get_bind, window]; rfl) _⟩

@[simp] theorem run_ofEngine_ok {α : Type} (a : α) (c : SyncClient) :
    (ofEngine (.ok a)).run c = .ok a c := rfl

@[simp] theorem run_ofEngine_error {α : Type} (message : String) (c : SyncClient) :
    (ofEngine (.error message : Except String α)).run c = .error message c := rfl

/-! ### The calls that queue everything first -/

section Calls

variable {c : SyncClient}

theorem localInsert_spec (sound : ∀ e, c.engine = some e → e.Sound) (nowMs : Nat)
    (visibleIndex : Int) (value : Nat) (bind : Bool) :
    stateOf ((localInsert nowMs visibleIndex value bind).run c) = c ∨
      ∃ e ids, Edited c (stateOf ((localInsert nowMs visibleIndex value bind).run c)) e ids ids := by
  rcases openForEdit_cases c nowMs with ⟨e, resident, -, opened⟩ | ⟨-, message, stopped⟩
  · rw [localInsert, run_bind_of_ok opened]
    by_cases outside : visibleIndex < 0 ∨ (e.tree.visible.length : Int) < visibleIndex
    · obtain ⟨message, failed⟩ :=
        (sound e resident).localInsert_error visibleIndex outside value bind
      rw [failed, run_bind_of_error (run_ofEngine_error message c)]
      exact Or.inl rfl
    · obtain ⟨k, rfl⟩ := Int.eq_ofNat_of_zero_le (by omega : 0 ≤ visibleIndex)
      obtain ⟨op, e', minted, mints, -⟩ :=
        (sound e resident).localInsert_spec k (by omega) value bind
      rw [minted, run_bind_of_ok (run_ofEngine_ok (op, e') c), run_modify_bind, stateOf_bind_pure]
      exact Or.inr ⟨e, _, edited_of_sendOperation resident mints⟩
  · rw [localInsert, run_bind_of_error stopped]
    exact Or.inl rfl

/-- The tail of `undo` and `redo` queues the reversal. -/
theorem sendOutcome_spec {e e' : Engine} (resident : c.engine = some e) {outcome : UndoOutcome}
    (mints : Mints e e' ((Built.operations outcome).map Operation.id)) :
    ∃ ids, Edited c (stateOf ((sendOutcome outcome).run (c.setEngine e'))) e ids ids := by
  cases outcome with
  | applied op =>
      rw [sendOutcome, run_modify_bind, stateOf_bind_pure]
      exact ⟨_, edited_of_sendOperation resident mints⟩
  | empty =>
      exact ⟨[], resident, ⟨e', rfl, mints⟩, fun id => by simp [queued, setEngine, sendOutcome],
        List.Subset.refl _⟩
  | unavailable =>
      exact ⟨[], resident, ⟨e', rfl, mints⟩, fun id => by simp [queued, setEngine, sendOutcome],
        List.Subset.refl _⟩

theorem undo_spec (sound : ∀ e, c.engine = some e → e.Sound) (nowMs : Nat) :
    stateOf ((undo nowMs).run c) = c ∨
      ∃ e ids, Edited c (stateOf ((undo nowMs).run c)) e ids ids := by
  rcases openForEdit_cases c nowMs with ⟨e, resident, -, opened⟩ | ⟨-, message, stopped⟩
  · rw [undo, run_bind_of_ok opened]
    cases undone : e.undo with
    | error message =>
        rw [run_bind_of_error (run_ofEngine_error message c)]
        exact Or.inl rfl
    | ok result =>
        rw [run_bind_of_ok (run_ofEngine_ok result c)]
        exact Or.inr ⟨e, sendOutcome_spec resident ((sound e resident).undo_spec undone)⟩
  · rw [undo, run_bind_of_error stopped]
    exact Or.inl rfl

theorem redo_spec (sound : ∀ e, c.engine = some e → e.Sound) (nowMs : Nat) :
    stateOf ((redo nowMs).run c) = c ∨
      ∃ e ids, Edited c (stateOf ((redo nowMs).run c)) e ids ids := by
  rcases openForEdit_cases c nowMs with ⟨e, resident, -, opened⟩ | ⟨-, message, stopped⟩
  · rw [redo, run_bind_of_ok opened]
    cases redone : e.redo with
    | error message =>
        rw [run_bind_of_error (run_ofEngine_error message c)]
        exact Or.inl rfl
    | ok result =>
        rw [run_bind_of_ok (run_ofEngine_ok result c)]
        exact Or.inr ⟨e, sendOutcome_spec resident ((sound e resident).redo_spec redone)⟩
  · rw [redo, run_bind_of_error stopped]
    exact Or.inl rfl

/-- A text within the document is minted as a whole. -/
theorem mintText_spec (isClusterContinuing : Nat → Bool) (k : Nat) (text : List Nat)
    {c : SyncClient} {e : Engine} (resident : c.engine = some e) (sound : e.Sound)
    (inside : k ≤ e.tree.visible.length) :
    ∃ ops e' offlineWindow, (mintText isClusterContinuing e k text).run c =
        .ok ops { c with engine := some e', offlineWindow } ∧
      Mints e e' (ops.map InsertOperation.id) := by
  induction text generalizing c e k with
  | nil =>
      refine ⟨[], e, c.offlineWindow, ?_, sound.mints_nil e.undoStack e.redoStack⟩
      rw [← resident]
      rfl
  | cons codePoint text ih =>
      obtain ⟨op, e₁, minted, head, longer⟩ :=
        sound.localInsert_spec k inside codePoint (isClusterContinuing codePoint)
      obtain ⟨ops, e', offlineWindow, ran, rest⟩ :=
        ih (k + 1) (c := (c.setEngine e₁).noteOperationAccepted) rfl head.sound (by omega)
      refine ⟨op :: ops, e', offlineWindow, ?_, head.trans rest⟩
      rw [mintText, minted, run_bind_of_ok (run_ofEngine_ok (op, e₁) c), run_modify_bind]
      exact run_bind_of_ok ran _

/-- Queueing a whole list. -/
theorem queue_all (ops : List InsertOperation) (c : SyncClient) :
    (ops.foldl (fun c op => c.record (.insert op)) c).engine = c.engine ∧
      ∀ id, id ∈ (ops.foldl (fun c op => c.record (.insert op)) c).queued ↔
        id ∈ c.queued ∨ id ∈ ops.map InsertOperation.id := by
  induction ops generalizing c with
  | nil => simp
  | cons op ops ih =>
      obtain ⟨engine, queue⟩ := ih (c.record (.insert op))
      refine ⟨engine, fun id => ?_⟩
      rw [List.foldl_cons, queue, mem_queued_record, List.map_cons, List.mem_cons, or_assoc]
      rfl

theorem localInsertText_spec (sound : ∀ e, c.engine = some e → e.Sound)
    (isClusterContinuing : Nat → Bool) (nowMs : Nat) (visibleIndex : Int) (text : List Nat) :
    stateOf ((localInsertText isClusterContinuing nowMs visibleIndex text).run c) = c ∨
      ∃ e ids, Edited c (stateOf
        ((localInsertText isClusterContinuing nowMs visibleIndex text).run c)) e ids ids := by
  rcases openForEdit_cases c nowMs with ⟨e, resident, -, opened⟩ | ⟨-, message, stopped⟩
  · rw [localInsertText, run_bind_of_ok opened]
    by_cases outside : visibleIndex < 0 ∨ (e.tree.visible.length : Int) < visibleIndex
    · cases text with
      | nil => exact Or.inl rfl
      | cons codePoint text =>
          -- the first insertion already throws
          obtain ⟨message, failed⟩ := (sound e resident).localInsert_error visibleIndex
            outside codePoint (isClusterContinuing codePoint)
          have stopped : (mintText isClusterContinuing e visibleIndex (codePoint :: text)).run c =
              .error message c := by
            rw [mintText, failed]
            exact run_bind_of_error (run_ofEngine_error message c) _
          rw [run_bind_of_error stopped]
          exact Or.inl rfl
    · obtain ⟨k, rfl⟩ := Int.eq_ofNat_of_zero_le (by omega : 0 ≤ visibleIndex)
      obtain ⟨ops, e', offlineWindow, minted, mints⟩ := mintText_spec isClusterContinuing k text
        resident (sound e resident) (by omega)
      set c₁ : SyncClient := { c with engine := some e', offlineWindow } with hc₁
      obtain ⟨engine, queue⟩ := queue_all ops c₁
      set c₂ := ops.foldl (fun c op => c.record (.insert op)) c₁ with hc₂
      have queuedAll : (ops.forM fun op => (modify fun c => c.record (.insert op) :
          Method PUnit)).run c₁ = .ok ⟨⟩ c₂ :=
        run_forM_of_ok (P := fun _ => True) (fun _ _ _ => ⟨rfl, trivial⟩) ops trivial
      rw [run_bind_of_ok minted, run_bind_of_ok queuedAll, stateOf_bind_pure]
      have kept := keeps_forM (operationsToRunMessages ops) (fun frame _ =>
        keeps_sendFrame c₂.engine c₂.unacked (frame.map .insert)) c₂ ⟨rfl, rfl⟩
      refine Or.inr ⟨e, ops.map InsertOperation.id, resident, ⟨e', kept.1.trans engine, mints⟩,
        fun id => ?_, List.Subset.refl _⟩
      rw [queued, kept.2]
      exact queue id
  · rw [localInsertText, run_bind_of_error stopped]
    exact Or.inl rfl

/-! ### Deleting -/

/-- One round of the loop of `localDelete`. -/
def deleteRound (op : DeleteOperation) : Method PUnit := do
  modify noteOperationAccepted
  sendOperation (.delete op)

/-- Without an exception every delete is queued. -/
theorem deleteRounds_ok (ops : List DeleteOperation) {c : SyncClient}
    (ready : c.ws ≠ some .CONNECTING) :
    (stateOf ((ops.forM deleteRound).run c)).engine = c.engine ∧
      ∀ id, id ∈ (stateOf ((ops.forM deleteRound).run c)).queued ↔
        id ∈ c.queued ∨ id ∈ ops.map DeleteOperation.id := by
  induction ops generalizing c with
  | nil => exact ⟨rfl, fun id => by simp [queued]⟩
  | cons op ops ih =>
      set c₁ := (c.noteOperationAccepted.record (.delete op)).transmit [.delete op] with hc₁
      have sent : (deleteRound op).run c = .ok ⟨⟩ c₁ :=
        sendFrame_ok (c := c.noteOperationAccepted.record (.delete op)) ready _
      have ready₁ : c₁.ws ≠ some .CONNECTING := by
        rw [hc₁, transmit_ws]
        exact ready
      obtain ⟨engine, queue⟩ := ih ready₁
      have unfolded : ((op :: ops).forM deleteRound).run c = (ops.forM deleteRound).run c₁ :=
        run_bind_of_ok sent _
      rw [unfolded]
      refine ⟨engine.trans (transmit_engine ..), fun id => ?_⟩
      have first : id ∈ c₁.queued ↔ id ∈ c.queued ∨ id = op.id := by
        rw [hc₁, queued, transmit_unacked]
        exact mem_queued_record
      rw [queue, first, List.map_cons, List.mem_cons, or_assoc]

/-- On a connecting socket the first delete is queued and the others are not reached. -/
theorem deleteRounds_connecting (ops : List DeleteOperation) {c : SyncClient}
    (connecting : c.ws = some .CONNECTING) :
    (stateOf ((ops.forM deleteRound).run c)).engine = c.engine ∧
      ∀ id, id ∈ (stateOf ((ops.forM deleteRound).run c)).queued ↔
        id ∈ c.queued ∨ id ∈ (ops.map DeleteOperation.id).take 1 := by
  cases ops with
  | nil => exact ⟨rfl, fun id => by simp [queued]⟩
  | cons op ops =>
      set c₁ := c.noteOperationAccepted.record (.delete op) with hc₁
      have threw : (deleteRound op).run c = .error stillConnecting c₁ :=
        sendFrame_connecting (c := c₁) connecting _
      have stopped : ((op :: ops).forM deleteRound).run c = .error stillConnecting c₁ :=
        run_bind_of_error threw _
      rw [stopped]
      refine ⟨rfl, fun id => ?_⟩
      rw [stateOf_error, List.map_cons, List.take_succ_cons, List.take_zero, List.mem_singleton]
      exact mem_queued_record

/-- What the loop reaches: everything, or the first delete only. -/
def keptIds (c : SyncClient) (ids : List Identifier) : List Identifier :=
  if c.ws = some .CONNECTING then ids.take 1 else ids

theorem localDelete_spec (sound : ∀ e, c.engine = some e → e.Sound) (nowMs : Nat)
    (visibleIndex : Int) (count : Nat) :
    (stateOf ((localDelete nowMs visibleIndex count).run c) = c ∧
        ¬ ((∃ e, c.engine = some e) ∧ c.Admits nowMs)) ∨
      ∃ e ids, Edited c (stateOf ((localDelete nowMs visibleIndex count).run c)) e ids
          (c.keptIds ids) ∧
        c.Admits nowMs ∧ ids.length = deletions e visibleIndex count := by
  rcases openForEdit_cases c nowMs with ⟨e, resident, admits, opened⟩ | ⟨refused, message, stopped⟩
  · obtain ⟨ops, e', minted, mints, length⟩ :=
      (sound e resident).localDelete_spec visibleIndex count
    refine Or.inr ⟨e, ops.map DeleteOperation.id, ?_, admits, by rw [List.length_map, length]⟩
    rw [localDelete, run_bind_of_ok opened, minted,
      run_bind_of_ok (run_ofEngine_ok (ops, e') c), run_modify_bind, stateOf_bind_pure]
    change Edited c (stateOf ((ops.forM deleteRound).run (c.setEngine e'))) e _ _
    unfold keptIds
    split_ifs with connecting
    · obtain ⟨engine, queue⟩ := deleteRounds_connecting ops (c := c.setEngine e') connecting
      exact ⟨resident, ⟨e', engine, mints⟩, queue, List.take_subset ..⟩
    · obtain ⟨engine, queue⟩ := deleteRounds_ok ops (c := c.setEngine e') connecting
      exact ⟨resident, ⟨e', engine, mints⟩, queue, List.Subset.refl _⟩
  · rw [localDelete, run_bind_of_error stopped]
    exact Or.inl ⟨rfl, refused⟩

end Calls

/-! ### Half recorded calls -/

/-- A `localDelete` of at least two nodes passes the gates while the socket is connecting. -/
def CutsOff (c : SyncClient) (nowMs : Nat) : EditCall → Prop
  | .localDelete visibleIndex count =>
      c.Admits nowMs ∧ c.ws = some .CONNECTING ∧
        ∃ e, c.engine = some e ∧ 2 ≤ deletions e visibleIndex count
  | _ => False

/-- A call changes nothing, or the engine mints operations of which all are queued, or, when the
loop of `localDelete` is cut off, not all. -/
theorem perform_cases {c : SyncClient} (sound : ∀ e, c.engine = some e → e.Sound)
    (isClusterContinuing : Nat → Bool) (nowMs : Nat) (call : EditCall) :
    (c.perform isClusterContinuing nowMs call = c ∧ ¬ c.CutsOff nowMs call) ∨
      ∃ e ids kept, Edited c (c.perform isClusterContinuing nowMs call) e ids kept ∧
        (ids ⊆ kept ↔ ¬ c.CutsOff nowMs call) := by
  have whole : ∀ {call : EditCall}, ¬ c.CutsOff nowMs call →
      (c.perform isClusterContinuing nowMs call = c ∨
        ∃ e ids, Edited c (c.perform isClusterContinuing nowMs call) e ids ids) →
      (c.perform isClusterContinuing nowMs call = c ∧ ¬ c.CutsOff nowMs call) ∨
        ∃ e ids kept, Edited c (c.perform isClusterContinuing nowMs call) e ids kept ∧
          (ids ⊆ kept ↔ ¬ c.CutsOff nowMs call) := by
    rintro call notCut (same | ⟨e, ids, edited⟩)
    · exact Or.inl ⟨same, notCut⟩
    · exact Or.inr ⟨e, ids, ids, edited, fun _ => notCut, fun _ => List.Subset.refl _⟩
  cases call with
  | localInsert visibleIndex value bind =>
      exact whole id (localInsert_spec sound nowMs visibleIndex value _)
  | localInsertText visibleIndex text =>
      exact whole id (localInsertText_spec sound isClusterContinuing nowMs visibleIndex text)
  | undo => exact whole id (undo_spec sound nowMs)
  | redo => exact whole id (redo_spec sound nowMs)
  | localDelete visibleIndex count =>
      rcases localDelete_spec sound nowMs visibleIndex count with
        ⟨same, refused⟩ | ⟨e, ids, edited, admits, length⟩
      · refine Or.inl ⟨same, ?_⟩
        rintro ⟨admits, -, e, resident, -⟩
        exact refused ⟨⟨e, resident⟩, admits⟩
      · refine Or.inr ⟨e, ids, _, edited, ?_⟩
        obtain ⟨e', -, mints⟩ := edited.minted
        have resident : ∀ e₁, c.engine = some e₁ → e₁ = e := fun e₁ same =>
          Option.some.inj (same.symm.trans edited.before)
        unfold keptIds CutsOff
        split_ifs with connecting
        · constructor
          · rintro all ⟨-, -, e₁, same, two⟩
            rw [resident e₁ same, ← length] at two
            -- the second identifier is not the first one
            match ids, two, all, mints.nodup with
            | first :: second :: ids, _, all, nodup =>
                have again : second ∈ [first] := all (by simp)
                rw [List.mem_singleton.mp again] at nodup
                simp at nodup
          · intro notCut
            have short : ids.length ≤ 1 := by
              by_contra long
              exact notCut ⟨admits, connecting, e, edited.before, by omega⟩
            rw [List.take_of_length_le short]
            exact List.Subset.refl _
        · exact ⟨fun _ cut => connecting cut.2.1, fun _ => List.Subset.refl _⟩

/-- The cases of a call on a sound client. -/
theorem perform_spec {c : SyncClient} (sound : c.Sound) (isClusterContinuing : Nat → Bool)
    (nowMs : Nat) (call : EditCall) :
    (c.perform isClusterContinuing nowMs call = c ∧ ¬ c.CutsOff nowMs call) ∨
      ∃ e ids kept, Edited c (c.perform isClusterContinuing nowMs call) e ids kept ∧
        (ids ⊆ kept ↔ ¬ c.CutsOff nowMs call) :=
  perform_cases sound.engine isClusterContinuing nowMs call

/-- Calls keep a client sound. -/
theorem perform_sound {c : SyncClient} (sound : c.Sound) (isClusterContinuing : Nat → Bool)
    (nowMs : Nat) (call : EditCall) : (c.perform isClusterContinuing nowMs call).Sound := by
  rcases perform_spec sound isClusterContinuing nowMs call with
    ⟨same, -⟩ | ⟨e, ids, kept, edited, -⟩
  · rw [same]
    exact sound
  · exact sound.edited edited

/-- A call leaves everything that it applied in the queue, except for a `localDelete` of two or
more nodes on a connecting socket. -/
theorem perform_recorded_iff {c : SyncClient} (sound : c.Sound) (isClusterContinuing : Nat → Bool)
    (nowMs : Nat) (call : EditCall) :
    Recorded c (c.perform isClusterContinuing nowMs call) ↔ ¬ c.CutsOff nowMs call := by
  rcases perform_spec sound isClusterContinuing nowMs call with
    ⟨same, notCut⟩ | ⟨e, ids, kept, edited, exact_⟩
  · rw [same]
    refine ⟨fun _ => notCut, fun _ e resident id member new => ?_⟩
    exact absurd member (new e resident)
  · rw [edited.recorded_iff sound, exact_]

/-- A client with an empty document on an open socket. -/
def joined (replicaId : Nat) : SyncClient :=
  { engine := some (Engine.new replicaId), unacked := [], recentlySentOps := [], ws := some .OPEN,
    transmitted := [], role := some .EDITOR, hasAnyAccess := true, offlineWindow := ⟨none, 0⟩ }

theorem joined_sound (replicaId : Nat) : (joined replicaId).Sound where
  engine e resident := by
    obtain rfl := Option.some.inj resident
    exact sound_new replicaId
  queue e _ id member := by cases member

/-- The client that typed two characters and then lost its connection; its next socket has not
opened yet. -/
def reconnecting : SyncClient :=
  { (joined 1).perform (fun _ => false) 0 (.localInsertText 0 [97, 98]) with
    ws := some .CONNECTING, offlineWindow := ⟨some 0, 0⟩ }

/-- Neither the socket nor the offline window matters. -/
theorem Sound.moved {c : SyncClient} (sound : c.Sound) (ws : Option ReadyState)
    (offlineWindow : OfflineWindowTracker) : Sound { c with ws, offlineWindow } :=
  ⟨sound.engine, sound.queue⟩

theorem reconnecting_sound : reconnecting.Sound :=
  (perform_sound (joined_sound 1) (fun _ => false) 0 (.localInsertText 0 [97, 98])).moved _ _

/-- An identifier that is new in the engine and not in the queue. -/
theorem not_recorded {c c' : SyncClient} (id : Identifier)
    (applied : c'.engine.any (fun e => decide (id ∈ e.applied)) = true)
    (unqueued : id ∉ c'.queued)
    (new : c.engine.all (fun e => decide (id ∉ e.applied)) = true) : ¬ Recorded c c' := by
  intro recorded
  obtain ⟨e', resident, member⟩ := (Option.any_eq_true _ _).mp applied
  refine unqueued (recorded e' resident id (of_decide_eq_true member) fun e before => ?_)
  rw [before] at new
  exact of_decide_eq_true new

theorem reconnecting_recorded_iff :
    Recorded reconnecting (reconnecting.perform (fun _ => false) 5 (.localDelete 0 2)) ↔
      ¬ reconnecting.CutsOff 5 (.localDelete 0 2) :=
  perform_recorded_iff reconnecting_sound (fun _ => false) 5 (.localDelete 0 2)

/-- Deleting both characters throws after the first one: the second deletion is in the engine and
nowhere else. -/
theorem localDelete_half_recorded :
    ∃ c : SyncClient, c.Sound ∧ ∃ call, ¬ Recorded c (c.perform (fun _ => false) 5 call) := by
  refine ⟨reconnecting, reconnecting_sound, .localDelete 0 2, ?_⟩
  exact not_recorded ⟨4, 1⟩ (by decide +kernel) (by decide +kernel) (by decide +kernel)

end SyncClient

end ConfluenceEditor
