/-
Runs of an input method.

The anchor of the open composition and its observed text are recorded beside the controller, event by
event. The controller agrees with the record as long as no start throws while it deletes the selection,
and as long as the caret can be placed after a commit (`Undisturbed`); then every composition puts its
text in once, behind its own anchor, and the sentinel rests exactly while one is open
(`composition_is_sound`).
-/

import ConfluenceEditor.Binding.Mounted
import ConfluenceEditor.Client.Composition

namespace ConfluenceEditor

open Engine RenderIndex PositionMapping Throwing

/-! ### The record -/

/-- The controller, the anchor of the open composition, and what was last observed of its text. -/
structure Composition where
  controller : CompositionController
  opened : Option (Option Identifier)
  observed : List Nat

/-- What cannot happen. -/
inductive CompositionHalt where
  | notArmed
  | anchorForgotten
  deriving DecidableEq, Repr

/-- The anchor is the start of the document, or a node that the engine knows. -/
def knows (e : Engine) (anchor : Option Identifier) : Bool :=
  anchor.all fun id => e.nodes.any fun n => decide (n.id = id)

namespace Composition

def selected (s : Composition) (selection : Option SelectionRange) : VisRange :=
  CompositionController.liveSelectionRange s.controller.domWriter.runs selection

/-- The record after an event, with the controller that it leaves behind. -/
def record (s : Composition) (controller : CompositionController) : CompositionEvent → Composition
  | .compositionstart _ selection =>
      if s.opened.isSome ∨ s.controller.sync.engine.isNone then { s with controller }
      else
        { controller, observed := []
          opened := some (controller.sync.engine.bind
            (·.resolvePresenceAnchor (s.selected selection).start)) }
  | .compositionupdate data =>
      { s with controller, observed := if s.opened.isSome then data.getD [] else s.observed }
  | .compositionend .. => { s with controller, opened := none }
  | .watchdog _ => { s with controller, opened := none }
  | .remoteOps _ => { s with controller }

/-- An event that can happen: the timer fires when it is armed, and remote operations leave the
anchor known. -/
def step (isClusterContinuing : Nat → Bool) (s : Composition) (event : CompositionEvent) :
    Except CompositionHalt Composition :=
  let after := s.record (stateOf
    ((CompositionController.handle isClusterContinuing event).run s.controller)) event
  match event with
  | .watchdog _ => if s.controller.watchdogArmed then .ok after else .error .notArmed
  | .remoteOps remote =>
      if s.opened.all (knows remote.engine) then .ok after else .error .anchorForgotten
  | _ => .ok after

/-! ### What is promised -/

/-- The nodes up to and with the anchor, and the nodes behind it. -/
def SplitAt (e : Engine) (anchor : Option Identifier) (before after : List Node) : Prop :=
  e.nodes = before ++ after ∧
    match anchor with
    | none => before = []
    | some id => ∃ first n, before = first ++ [n] ∧ n.id = id

/-- The nodes that are not deleted. -/
def survivors (nodes : List Node) : List Node := nodes.filter fun n => !n.deleted

/-- The text is in the document once, right of the last survivor up to the anchor, or it is refused and
nothing has changed. -/
def InsertedOnce (c c' : SyncClient) (anchor : Option Identifier) (nowMs : Nat)
    (text : List Nat) : Prop :=
  (c.Admits nowMs → ∃ e e' before after new, c.engine = some e ∧ c'.engine = some e' ∧
    SplitAt e anchor before after ∧ e'.visible = survivors before ++ new ++ survivors after ∧
    new.map Node.value = Utf16.codePoints text) ∧
  (¬ c.Admits nowMs → c' = c)

/-- What one event does to the document. -/
def Effect (s s' : Composition) : CompositionEvent → Prop
  | .compositionstart .. => ∀ e, s.controller.sync.engine = some e →
      ∃ e', s'.controller.sync.engine = some e' ∧ e'.visible.Sublist e.visible
  | .compositionupdate _ => s'.controller.sync = s.controller.sync
  | .compositionend nowMs data => s'.opened = none ∧
      (s.opened = none → s'.controller.sync = s.controller.sync) ∧
      ∀ anchor, s.opened = some anchor → InsertedOnce s.controller.sync s'.controller.sync anchor
        nowMs (data.getD s.observed)
  | .watchdog nowMs => s'.opened = none ∧ ∃ anchor, s.opened = some anchor ∧
      InsertedOnce s.controller.sync s'.controller.sync anchor nowMs s.observed
  | .remoteOps remote => s'.controller.sync = remote.client

/-- Whether a notification about remote operations is deferred. -/
def defers (s : Composition) : Bool :=
  match CompositionController.noteRemoteOpsApplied.run s.controller with
  | .ok deferred _ => deferred
  | .error _ _ => false

/-- The sentinel rests, the notifications are deferred and the watchdog is armed exactly while a
composition is open. -/
def Composed (s : Composition) : Prop :=
  s.controller.observing = s.opened.isNone ∧ s.defers = s.opened.isSome ∧
    s.controller.watchdogArmed = s.opened.isSome

/-! ### When it is kept -/

/-- The insertion of the text throws, and is not refused: the socket is still connecting. -/
def Interrupted (isClusterContinuing : Nat → Bool) (c : SyncClient) (visibleIndex nowMs : Nat)
    (text : List Nat) : Prop :=
  text ≠ [] ∧ ∃ message c', SyncClient.isRefusal message = false ∧
    (SyncClient.localInsertText isClusterContinuing nowMs visibleIndex (Utf16.codePoints text)).run c =
      .error message c'

/-- The caret can be placed behind the text: the document with the text in it consists of code points,
and its string has as many characters as there are visible nodes up to there. A commit that is
interrupted places no caret. -/
def Places (isClusterContinuing : Nat → Bool) (c : SyncClient) (anchor : Option Identifier)
    (nowMs : Nat) (text : List Nat) : Prop :=
  ∀ e, c.engine = some e →
    Interrupted isClusterContinuing c (e.naiveResolveCaret anchor) nowMs text ∨
      let inserted := if c.Admits nowMs then Utf16.codePoints text else []
      let values := Pieces.splice (e.naiveResolveCaret anchor) 0 inserted (e.visible.map Node.value)
      (∀ v ∈ values, v ≤ 0x10ffff) ∧ e.naiveResolveCaret anchor + inserted.length ≤
        (Utf16.codePoints (Utf16.encode values)).length

/-- No start throws while it deletes what is selected, and the caret can be placed after a commit. -/
def Undisturbed (isClusterContinuing : Nat → Bool) (s : Composition) : CompositionEvent → Prop
  | .compositionstart nowMs selection => s.opened = none → s.controller.sync.engine.isSome = true →
      (s.selected selection).start < (s.selected selection).stop →
        returned ((CompositionController.deleteRangeAt nowMs (s.selected selection).start
          ((s.selected selection).stop - (s.selected selection).start)).run
            s.controller.opening) = true
  | .compositionend nowMs data => ∀ anchor, s.opened = some anchor →
      Places isClusterContinuing s.controller.sync anchor nowMs (data.getD s.observed)
  | .watchdog nowMs => ∀ anchor, s.opened = some anchor →
      Places isClusterContinuing s.controller.sync anchor nowMs s.observed
  | _ => True

/-- An editor without a composition. -/
structure Started (s : Composition) : Prop where
  opened : s.opened = none
  composing : s.controller.composing = false
  watchdogArmed : s.controller.watchdogArmed = false
  observing : s.controller.observing = true
  issued : ∀ e, s.controller.sync.engine = some e → e.Issued

end Composition

namespace CompositionController

variable {c c' : CompositionController} {e : Engine}

/-! ### What the parts of a handler leave alone -/

theorem keeps_engineText (P : CompositionController → Prop) : Keeps P engineText := by
  intro s holds
  rw [engineText, run_get_bind]
  cases s.sync.engine with
  | none => exact holds
  | some e =>
      dsimp only
      cases e.text with
      | ok text => exact holds
      | error message => exact holds

theorem keeps_placeCaretAt (P : CompositionController → Prop) (visIndex : Int) :
    Keeps P (placeCaretAt visIndex) := by
  intro s holds
  rw [placeCaretAt, run_get_bind]
  by_cases unmounted : s.domWriter.root = none
  · rw [if_pos unmounted]
    exact holds
  · rw [if_neg unmounted]
    cases visToDom s.domWriter.runs (rootElement s.domWriter) visIndex with
    | ok position => exact holds
    | error message => exact holds

theorem keeps_applyPatches {P : CompositionController → Prop}
    (apart : ∀ s domWriter, P s → P { s with domWriter })
    (method : DomWriter → DomWriter.Method DomWriter) : Keeps P (applyPatches method) := by
  intro s holds
  rw [applyPatches, run_get_bind]
  cases method s.domWriter with
  | ok domWriter => exact apart s domWriter holds
  | error error => exact holds

theorem keeps_noteRemoteOpsApplied {P : CompositionController → Prop}
    (counts : ∀ s n, P s → P { s with remoteOpsBufferedCount := n }) :
    Keeps P noteRemoteOpsApplied := by
  intro s holds
  rw [noteRemoteOpsApplied, run_get_bind]
  by_cases composing : s.composing = true
  · rw [if_neg (not_not.mpr composing)]
    exact counts s _ holds
  · rw [if_pos composing]
    exact holds

theorem keeps_onRemoteOpsApplied {P : CompositionController → Prop}
    (counts : ∀ s n, P s → P { s with remoteOpsBufferedCount := n })
    (apart : ∀ s domWriter, P s → P { s with domWriter }) : Keeps P onRemoteOpsApplied := by
  intro s holds
  rw [onRemoteOpsApplied, run_get_bind]
  cases s.sync.engine with
  | none => exact holds
  | some e =>
      refine (keeps_noteRemoteOpsApplied counts).bind (fun deferred => ?_) s holds
      cases deferred with
      | true => exact keeps_pure P _
      | false =>
          exact (keeps_engineText P).bind fun shown =>
            keeps_applyPatches apart fun w => w.mount (shown.getD [])

/-! ### The deletion of a start -/

/-- A deletion that returns takes nodes out or is refused. -/
theorem deleteRangeAt_returned (resident : c.sync.engine = some e) (issued : e.Issued)
    {nowMs k count : Nat} (ran : (deleteRangeAt nowMs k count).run c = .ok () c') :
    ∃ e', c'.sync.engine = some e' ∧ e'.Issued ∧ e'.visible.Sublist e.visible ∧
      c'.composing = c.composing ∧ c'.lastData = c.lastData := by
  rw [deleteRangeAt] at ran
  by_cases nothing : count = 0
  · rw [if_pos nothing] at ran
    cases ran
    exact ⟨e, resident, issued, List.Sublist.refl _, rfl, rfl⟩
  rw [if_neg nothing] at ran
  rcases SyncClient.localDelete_outcome nowMs resident issued k count with
    ⟨_, message, refusal, refused⟩ | ⟨_, e', sync, passed, resident', issued', visible⟩
  · rw [run_get_bind, refused] at ran
    dsimp only at ran
    rw [run_modify_bind, if_pos refusal] at ran
    cases ran
    exact ⟨e, resident, issued, List.Sublist.refl _, rfl, rfl⟩
  · have less : e'.visible.Sublist e.visible := by
      rw [visible]
      have whole := List.take_append_drop k e.visible
      conv_rhs => rw [← whole]
      refine (List.Sublist.refl _).append ?_
      rw [← List.drop_drop]
      exact List.drop_sublist ..
    rcases passed with ⟨ops, returned⟩ | threw
    · rw [run_get_bind, returned] at ran
      dsimp only at ran
      rw [run_modify_bind] at ran
      -- what follows touches the writer only
      have rest := ((keeps_engineText fun s => s.sync = sync ∧ s.composing = c.composing ∧
        s.lastData = c.lastData).bind fun text => (keeps_applyPatches (fun _ _ same => same)
          fun w => DomWriter.deleteRange count w k count text).bind fun _ =>
            keeps_placeCaretAt _ k) { c with sync } ⟨rfl, rfl, rfl⟩
      rw [ran] at rest
      have ⟨same, composing, lastData⟩ := rest
      refine ⟨e', ?_, issued', less, composing, lastData⟩
      rw [← resident']
      exact congrArg SyncClient.engine same
    · rw [run_get_bind, threw] at ran
      dsimp only at ran
      rw [run_modify_bind, SyncClient.isRefusal_stillConnecting] at ran
      cases ran

/-! ### The display of a commit -/

theorem mapM_fromCodePoint {nodes : List Node} (small : ∀ n ∈ nodes, n.value ≤ 0x10ffff) :
    (nodes.mapM fun n => fromCodePoint n.value) =
      .ok (nodes.map fun n => Utf16.units n.value) := by
  induction nodes with
  | nil => rfl
  | cons n nodes ih =>
      have ⟨here, later⟩ := List.forall_mem_cons.mp small
      have one : fromCodePoint n.value = .ok (Utf16.units n.value) := by
        rw [fromCodePoint, Utf16.units]
        by_cases single : n.value < 0x10000
        · rw [if_pos single, if_pos single]
        · rw [if_neg single, if_neg single, if_pos here]
      rw [List.mapM_cons, one, ih later]
      rfl

theorem text_eq (small : ∀ v ∈ e.visible.map Node.value, v ≤ 0x10ffff) :
    e.text = .ok (Utf16.encode (e.visible.map Node.value)) := by
  rw [Engine.text, mapM_fromCodePoint fun n member => small n.value (List.mem_map_of_mem member),
    Utf16.encode, List.flatMap_map, List.flatMap_def]
  rfl

/-- The last part of a commit. -/
theorem display_returns (resident : c.sync.engine = some e)
    (small : ∀ v ∈ e.visible.map Node.value, v ≤ 0x10ffff) {caret : Nat}
    (inside : caret ≤ (Utf16.codePoints (Utf16.encode (e.visible.map Node.value))).length) :
    ∃ domWriter, (do
      let shown ← engineText
      applyPatches fun w => w.mount (shown.getD [])
      placeCaretAt caret
      observe true : Method Unit).run c = .ok () { c with domWriter, observing := true } := by
  have text := text_eq small
  have read : engineText.run c = .ok (some (Utf16.encode (e.visible.map Node.value))) c := by
    rw [engineText, run_get_bind, resident]
    dsimp only
    rw [text]
    rfl
  have ⟨w, mounted, places⟩ := c.domWriter.mount_places (UnicodeOffsets.encode_lt small)
  have patched : (applyPatches fun w => w.mount
      ((some (Utf16.encode (e.visible.map Node.value))).getD [])).run c =
        .ok () { c with domWriter := w } := by
    rw [applyPatches, run_get_bind, Option.getD_some, mounted]
    rfl
  have placed : (placeCaretAt caret).run { c with domWriter := w } =
      .ok () { c with domWriter := w } := by
    have ⟨position, mapped⟩ := places (rootElement w) caret inside
    rw [placeCaretAt, run_get_bind]
    dsimp only
    rw [mapped]
    by_cases unmounted : w.root = none
    · rw [if_pos unmounted]
      rfl
    · rw [if_neg unmounted]
      rfl
  refine ⟨w, ?_⟩
  rw [run_bind_of_ok read, run_bind_of_ok patched, run_bind_of_ok placed]
  rfl

/-! ### A commit -/

/-- The caret of an anchor is behind the survivors up to it. -/
theorem resolveCaret_split (issued : e.Issued) {anchor : Option Identifier} {before after : List Node}
    (split : Composition.SplitAt e anchor before after) :
    e.resolveCaret anchor = (Composition.survivors before).length ∧
      e.naiveResolveCaret anchor = (Composition.survivors before).length := by
  have sound := issued.spec.1
  have caret : e.resolveCaret anchor = (Composition.survivors before).length := by
    have ⟨whole, ends⟩ := split
    cases anchor with
    | none =>
        have nothing : before = [] := ends
        rw [nothing]
        rfl
    | some id =>
        have ⟨first, n, last, named⟩ := ends
        have list : e.tree.nodes = first ++ n :: after := by
          rw [← sound.wf.toArray_eq, ← Engine.nodes, whole, last, List.append_assoc]
          rfl
        rw [← named, last]
        exact sound.wf.visibleIndexRightOf_eq list
  have same := sound.resolveCaret_eq anchor
  exact ⟨caret, Int.ofNat.inj (same.symm.trans caret)⟩

/-- The nodes of a text, in place at the visible index `k`. -/
structure Placed (e e' : Engine) (k : Nat) (values : List Nat) (new : List Node) : Prop where
  issued : e'.Issued
  visible : e'.visible = e.visible.take k ++ new ++ e.visible.drop k
  values : new.map Node.value = values

theorem Placed.refl (issued : e.Issued) (k : Nat) : Placed e e k [] [] where
  issued := issued
  visible := by rw [List.append_nil, List.take_append_drop]
  values := rfl

/-- The insertion of a commit returns, refused or not, or it is interrupted with the text in place. -/
theorem insertText_outcome (isClusterContinuing : Nat → Bool) (resident : c.sync.engine = some e)
    (issued : e.Issued) {k : Nat} (inside : k ≤ e.visible.length) (nowMs : Nat) (text : List Nat) :
    (¬ Composition.Interrupted isClusterContinuing c.sync k nowMs text ∧
      ∃ sync e' new, (insertText isClusterContinuing nowMs k text).run c =
          .ok new.length { c with sync } ∧ sync.engine = some e' ∧
        Placed e e' k (if c.sync.Admits nowMs then Utf16.codePoints text else []) new ∧
        (¬ c.sync.Admits nowMs → sync = c.sync)) ∨
      (c.sync.Admits nowMs ∧ ∃ error sync e' new, (insertText isClusterContinuing nowMs k text).run c =
          .error error { c with sync, observing := true } ∧ sync.engine = some e' ∧
        Placed e e' k (Utf16.codePoints text) new) := by
  by_cases empty : text = []
  · have nothing : (if c.sync.Admits nowMs then Utf16.codePoints text else []) = [] := by
      rw [empty, Utf16.codePoints_nil]
      exact ite_self _
    refine Or.inl ⟨fun interrupted => interrupted.1 empty, c.sync, e, [], ?_, resident, ?_,
      fun _ => rfl⟩
    · rw [insertText, if_pos (List.length_eq_zero_iff.mpr empty)]
      rfl
    · rw [nothing]
      exact Placed.refl issued k
  have nonempty : ¬ text.length = 0 := fun zero => empty (List.length_eq_zero_iff.mp zero)
  rcases SyncClient.localInsertText_outcome isClusterContinuing nowMs resident issued inside
    (Utf16.codePoints text) with ⟨refused, message, refusal, stopped⟩ |
      ⟨admits, e', new, sync, passed, resident', issued', visible, values⟩
  · refine Or.inl ⟨?_, c.sync, e, [], ?_, resident, ?_, fun _ => rfl⟩
    · intro ⟨_, message', sync, other, threw⟩
      cases stopped.symm.trans threw
      rw [refusal] at other
      cases other
    · rw [insertText, if_neg nonempty, run_get_bind, stopped]
      dsimp only
      rw [run_modify_bind, if_pos refusal]
      rfl
    · rw [if_neg refused]
      exact Placed.refl issued k
  · have placed : Placed e e' k (Utf16.codePoints text) new := ⟨issued', visible, values⟩
    rcases passed with ⟨ops, returned⟩ | threw
    · refine Or.inl ⟨?_, sync, e', new, ?_, resident', ?_, fun refused => absurd admits refused⟩
      · intro ⟨_, message', sync', _, threw⟩
        cases returned.symm.trans threw
      · have length : (Utf16.codePoints text).length = new.length := by
          rw [← values, List.length_map]
        rw [insertText, if_neg nonempty, run_get_bind, returned]
        dsimp only
        rw [run_modify_bind, length]
        rfl
      · rw [if_pos admits]
        exact placed
    · refine Or.inr ⟨admits, .sync SyncClient.stillConnecting, sync, e', new, ?_, resident', placed⟩
      rw [insertText, if_neg nonempty, run_get_bind, threw]
      dsimp only
      rw [run_modify_bind, SyncClient.isRefusal_stillConnecting]
      rfl

/-- A commit is over when it returns, and also when it throws. -/
theorem commit_spec (isClusterContinuing : Nat → Bool) (resident : c.sync.engine = some e)
    (issued : e.Issued) {before after : List Node}
    (split : Composition.SplitAt e c.anchorId before after) {nowMs : Nat} {text : List Nat}
    (places : Composition.Places isClusterContinuing c.sync c.anchorId nowMs text)
    (done : c' = stateOf ((commit isClusterContinuing nowMs text).run c)) :
    Composition.InsertedOnce c.sync c'.sync c.anchorId nowMs text ∧
      (∃ e', c'.sync.engine = some e' ∧ e'.Issued) ∧ c'.composing = false ∧
      c'.watchdogArmed = false ∧ c'.observing = true := by
  obtain ⟨caret, naive⟩ := resolveCaret_split issued split
  set k := (Composition.survivors before).length with hk
  have shown : e.visible = Composition.survivors before ++ Composition.survivors after := by
    rw [Engine.visible, split.1, List.filter_append]
    rfl
  have front : e.visible.take k = Composition.survivors before := by
    rw [shown]
    exact List.take_left' rfl
  have behind : e.visible.drop k = Composition.survivors after := by
    rw [shown]
    exact List.drop_left' rfl
  have inside : k ≤ e.visible.length := by
    rw [shown, List.length_append]
    exact Nat.le_add_right _ _
  set c₁ : CompositionController := { c with
    watchdogArmed := false, composing := false, anchorId := none, remoteOpsBufferedCount := 0 }
  have ran : (commit isClusterContinuing nowMs text).run c = (do
      let insertedScalars ← insertText isClusterContinuing nowMs k text
      let shown ← engineText
      applyPatches fun w => w.mount (shown.getD [])
      placeCaretAt ((k : Int) + insertedScalars)
      observe true : Method Unit).run c₁ := by
    rw [commit, run_get_bind, run_modify_bind, run_get_bind]
    dsimp only
    rw [resident]
    dsimp only
    rw [caret]
  rw [ran] at done
  rcases insertText_outcome isClusterContinuing (c := c₁) resident issued inside nowMs text with
    ⟨whole, sync, e', new, inserted, resident', placed, kept⟩ |
      ⟨admits, error, sync, e', new, threw, resident', placed⟩
  · have shown' : e'.visible.map Node.value = Pieces.splice k 0
        (if c.sync.Admits nowMs then Utf16.codePoints text else []) (e.visible.map Node.value) := by
      rw [placed.visible, Pieces.splice, ← placed.values, List.map_append, List.map_append,
        List.map_take, List.map_drop, Nat.add_zero]
    have length : new.length =
        (if c.sync.Admits nowMs then Utf16.codePoints text else []).length := by
      rw [← List.length_map (f := Node.value), placed.values]
    have displays := places e resident
    rw [naive] at displays
    obtain ⟨small, reach⟩ := displays.resolve_left whole
    rw [← shown'] at small reach
    rw [← length] at reach
    obtain ⟨domWriter, displayed⟩ := display_returns (c := { c₁ with sync }) resident' small reach
    have position : ((k : Int) + (new.length : Nat)) = ((k + new.length : Nat) : Int) :=
      (Int.natCast_add k new.length).symm
    rw [run_bind_of_ok inserted, position, displayed, stateOf_ok] at done
    rw [done]
    refine ⟨⟨fun admits => ?_, kept⟩, ⟨e', resident', placed.issued⟩, rfl, rfl, rfl⟩
    have visible := placed.visible
    have values := placed.values
    rw [front, behind] at visible
    rw [if_pos admits] at values
    exact ⟨e, e', before, after, new, resident, resident', split, visible, values⟩
  · rw [run_bind_of_error threw, stateOf_error] at done
    rw [done]
    refine ⟨⟨fun _ => ?_, fun refused => absurd admits refused⟩, ⟨e', resident', placed.issued⟩, rfl,
      rfl, rfl⟩
    have visible := placed.visible
    rw [front, behind] at visible
    exact ⟨e, e', before, after, new, resident, resident', split, visible, placed.values⟩

end CompositionController

/-! ### Every event -/

namespace Composition

open CompositionController

/-- The controller agrees with the record. -/
structure Agrees (s : Composition) : Prop where
  issued : ∀ e, s.controller.sync.engine = some e → e.Issued
  composing : s.controller.composing = s.opened.isSome
  watchdogArmed : s.controller.watchdogArmed = s.opened.isSome
  observing : s.controller.observing = s.opened.isNone
  anchor : ∀ anchor, s.opened = some anchor → s.controller.anchorId = anchor ∧
    s.controller.lastData = s.observed ∧
    ∃ e, s.controller.sync.engine = some e ∧ knows e anchor = true

variable {isClusterContinuing : Nat → Bool} {s s' : Composition}

theorem Started.agrees (started : s.Started) : s.Agrees where
  issued := started.issued
  composing := by rw [started.opened, started.composing]; rfl
  watchdogArmed := by rw [started.opened, started.watchdogArmed]; rfl
  observing := by rw [started.opened, started.observing]; rfl
  anchor anchor opened := by
    rw [started.opened] at opened
    cases opened

theorem Agrees.composed (agrees : s.Agrees) : s.Composed := by
  refine ⟨agrees.observing, ?_, agrees.watchdogArmed⟩
  rw [defers, noteRemoteOpsApplied, run_get_bind, agrees.composing]
  cases s.opened with
  | none => rfl
  | some anchor => rfl

/-- A known anchor divides the nodes. -/
theorem exists_split {e : Engine} {anchor : Option Identifier} (known : knows e anchor = true) :
    ∃ before after, SplitAt e anchor before after := by
  cases anchor with
  | none => exact ⟨[], e.nodes, rfl, rfl⟩
  | some id =>
      have ⟨n, member, named⟩ := List.any_eq_true.mp known
      have ⟨first, after, whole⟩ := List.append_of_mem member
      refine ⟨first ++ [n], after, ?_, first, n, rfl, of_decide_eq_true named⟩
      rw [whole, List.append_assoc]
      rfl

theorem knows_resolvePresenceAnchor (e : Engine) (visibleIndex : Int) :
    knows e (e.resolvePresenceAnchor visibleIndex) = true := by
  rw [resolvePresenceAnchor]
  by_cases first : visibleIndex ≤ 0
  · rw [if_pos first]
    rfl
  · rw [if_neg first]
    cases here : e.visible[(visibleIndex - 1).toNat]? with
    | none => rfl
    | some n =>
        have member := (List.mem_filter.mp (List.mem_of_getElem? here)).1
        exact List.any_eq_true.mpr ⟨n, member, decide_eq_true rfl⟩

/-- A commit closes the composition. -/
theorem Agrees.commit (agrees : s.Agrees) {anchor : Option Identifier} (opened : s.opened = some anchor)
    {nowMs : Nat} {text : List Nat}
    (places : Places isClusterContinuing s.controller.sync anchor nowMs text)
    (closed : s'.opened = none) (done : s'.controller =
      stateOf ((CompositionController.commit isClusterContinuing nowMs text).run s.controller)) :
    s'.Agrees ∧ InsertedOnce s.controller.sync s'.controller.sync anchor nowMs text := by
  have ⟨own, _, e, resident, known⟩ := agrees.anchor anchor opened
  rw [← own] at places known ⊢
  have ⟨before, after, split⟩ := exists_split known
  have ⟨inserted, ⟨e', resident', issued'⟩, composing, armed, observing⟩ :=
    commit_spec isClusterContinuing resident (agrees.issued e resident) split places done
  refine ⟨⟨?_, ?_, ?_, ?_, ?_⟩, inserted⟩
  · intro e₁ same
    cases resident'.symm.trans same
    exact issued'
  · rw [composing, closed]
    rfl
  · rw [armed, closed]
    rfl
  · rw [observing, closed]
    rfl
  · intro anchor' again
    rw [closed] at again
    cases again

theorem Agrees.compositionend (agrees : s.Agrees) {nowMs : Nat} {data : Option (List Nat)}
    (undisturbed : Undisturbed isClusterContinuing s (.compositionend nowMs data))
    (moved : step isClusterContinuing s (.compositionend nowMs data) = .ok s') :
    s'.Agrees ∧ Effect s s' (.compositionend nowMs data) := by
  have ⟨controller, ran⟩ : ∃ controller, controller =
      stateOf ((handleCompositionEnd isClusterContinuing nowMs data).run s.controller) := ⟨_, rfl⟩
  have after : s' = { s with controller, opened := none } := by
    rw [ran]
    exact (Except.ok.inj moved).symm
  rw [handleCompositionEnd, run_get_bind, agrees.composing] at ran
  cases opened : s.opened with
  | none =>
      rw [opened] at ran
      have same : controller = s.controller := ran
      have whole : s' = s := by rw [after, same, ← opened]
      rw [whole]
      refine ⟨agrees, opened, fun _ => rfl, fun anchor again => ?_⟩
      cases opened.symm.trans again
  | some anchor =>
      rw [opened] at ran
      have ⟨_, observed, _⟩ := agrees.anchor anchor opened
      have done : s'.controller = stateOf ((CompositionController.commit isClusterContinuing nowMs
          (data.getD s.observed)).run s.controller) := by
        rw [after, ran, ← observed]
        rfl
      have closed : s'.opened = none := by rw [after]
      have ⟨agrees', inserted⟩ := agrees.commit opened (undisturbed anchor opened) closed done
      refine ⟨agrees', closed, fun none => ?_, fun anchor' again => ?_⟩
      · cases opened.symm.trans none
      · cases opened.symm.trans again
        exact inserted

theorem Agrees.watchdog (agrees : s.Agrees) {nowMs : Nat}
    (undisturbed : Undisturbed isClusterContinuing s (.watchdog nowMs))
    (moved : step isClusterContinuing s (.watchdog nowMs) = .ok s') :
    s'.Agrees ∧ Effect s s' (.watchdog nowMs) := by
  rw [step] at moved
  by_cases armed : s.controller.watchdogArmed = true
  · rw [if_pos armed] at moved
    have ⟨anchor, opened⟩ := Option.isSome_iff_exists.mp (agrees.watchdogArmed.symm.trans armed)
    have ⟨_, observed, _⟩ := agrees.anchor anchor opened
    have after := (Except.ok.inj moved).symm
    have closed : s'.opened = none := by
      rw [after]
      rfl
    have done : s'.controller = stateOf ((CompositionController.commit isClusterContinuing nowMs
        s.observed).run s.controller) := by
      rw [after, ← observed]
      rfl
    have ⟨agrees', inserted⟩ := agrees.commit opened (undisturbed anchor opened) closed done
    exact ⟨agrees', closed, anchor, opened, inserted⟩
  · rw [if_neg armed] at moved
    cases moved

theorem Agrees.compositionupdate (agrees : s.Agrees) {data : Option (List Nat)}
    (moved : step isClusterContinuing s (.compositionupdate data) = .ok s') :
    s'.Agrees ∧ Effect s s' (.compositionupdate data) := by
  have ⟨controller, ran⟩ : ∃ controller, controller =
      stateOf ((handleCompositionUpdate data).run s.controller) := ⟨_, rfl⟩
  have after : s' = { s with
      controller, observed := if s.opened.isSome then data.getD [] else s.observed } := by
    rw [ran]
    exact (Except.ok.inj moved).symm
  rw [handleCompositionUpdate, run_get_bind, agrees.composing] at ran
  cases opened : s.opened with
  | none =>
      rw [opened] at ran after
      have same : controller = s.controller := ran
      have whole : s' = s := by
        rw [after, same]
        show Composition.mk s.controller none s.observed = s
        rw [← opened]
      rw [whole]
      exact ⟨agrees, rfl⟩
  | some anchor =>
      rw [opened] at ran after
      have same : controller = { s.controller with lastData := data.getD [] } := ran
      rw [after, same]
      refine ⟨⟨agrees.issued, ?_, ?_, ?_, ?_⟩, rfl⟩
      · rw [← opened]
        exact agrees.composing
      · rw [← opened]
        exact agrees.watchdogArmed
      · rw [← opened]
        exact agrees.observing
      · intro anchor' again
        have ⟨own, _, resident⟩ := agrees.anchor anchor' (opened.trans again)
        exact ⟨own, rfl, resident⟩

theorem Agrees.remoteOps (agrees : s.Agrees) {remote : RemoteClient}
    (moved : step isClusterContinuing s (.remoteOps remote) = .ok s') :
    s'.Agrees ∧ Effect s s' (.remoteOps remote) := by
  rw [step] at moved
  by_cases known : s.opened.all (knows remote.engine) = true
  · rw [if_pos known] at moved
    have ⟨controller, ran⟩ : ∃ controller, controller =
        stateOf (onRemoteOpsApplied.run { s.controller with sync := remote.client }) := ⟨_, rfl⟩
    have after : s' = { s with controller } := by
      rw [ran]
      exact (Except.ok.inj moved).symm
    -- the reaction touches the writer and the counter only
    have same := keeps_onRemoteOpsApplied (P := fun c => c.sync = remote.client ∧
      c.composing = s.controller.composing ∧ c.watchdogArmed = s.controller.watchdogArmed ∧
      c.observing = s.controller.observing ∧ c.anchorId = s.controller.anchorId ∧
      c.lastData = s.controller.lastData) (fun _ _ same => same) (fun _ _ same => same)
      { s.controller with sync := remote.client } ⟨rfl, rfl, rfl, rfl, rfl, rfl⟩
    rw [← ran] at same
    have ⟨sync, composing, armed, observing, anchorId, lastData⟩ := same
    rw [after]
    refine ⟨⟨?_, ?_, ?_, ?_, ?_⟩, sync⟩
    · intro e resident
      rw [sync, remote.resident] at resident
      cases resident
      exact remote.issued
    · exact composing.trans agrees.composing
    · exact armed.trans agrees.watchdogArmed
    · exact observing.trans agrees.observing
    · intro anchor opened
      have ⟨own, observed, _⟩ := agrees.anchor anchor opened
      have opened' : s.opened = some anchor := opened
      rw [opened'] at known
      exact ⟨anchorId.trans own, lastData.trans observed, remote.engine,
        (congrArg SyncClient.engine sync).trans remote.resident, known⟩
  · rw [if_neg known] at moved
    cases moved

/-- The controller that a start leaves behind when its deletion returns. -/
theorem start_opens {c : CompositionController} {e : Engine} {nowMs : Nat}
    {selection : Option SelectionRange} {range : VisRange} (resident : c.sync.engine = some e)
    (issued : e.Issued) (idle : c.composing = false)
    (range_eq : range = liveSelectionRange c.domWriter.runs selection)
    (undisturbed : range.start < range.stop → returned ((deleteRangeAt nowMs range.start
      (range.stop - range.start)).run c.opening) = true) :
    ∃ (c' : CompositionController) (e' : Engine),
      stateOf ((handleCompositionStart nowMs selection).run c) =
        { c' with
          anchorId := c'.sync.engine.bind (fun engine => engine.resolvePresenceAnchor range.start),
          observing := false, watchdogArmed := true } ∧
      c'.sync.engine = some e' ∧ e'.Issued ∧ e'.visible.Sublist e.visible ∧
      c'.composing = true ∧ c'.lastData = [] := by
  have free : ¬ (c.sync.engine.isNone = true ∨ c.composing = true) := by
    rw [resident, idle]
    exact fun blocked => blocked.elim Bool.false_ne_true Bool.false_ne_true
  rw [handleCompositionStart, run_get_bind, if_neg free, ← range_eq]
  by_cases selects : range.start < range.stop
  · have ⟨_, c', ran⟩ := exists_of_returned _ (undisturbed selects)
    have ⟨e', resident', issued', less, composing, lastData⟩ :=
      deleteRangeAt_returned (c := c.opening) resident issued ran
    refine ⟨c', e', ?_, resident', issued', less, composing, lastData⟩
    rw [if_pos selects]
    show stateOf ((deleteRangeAt nowMs range.start (range.stop - range.start) >>= _).run
      c.opening) = _
    rw [run_bind_of_ok ran]
    rfl
  · refine ⟨c.opening, e, ?_, resident, issued, List.Sublist.refl _, rfl, rfl⟩
    rw [if_neg selects]
    rfl

theorem Agrees.compositionstart (agrees : s.Agrees) {nowMs : Nat} {selection : Option SelectionRange}
    (undisturbed : Undisturbed isClusterContinuing s (.compositionstart nowMs selection))
    (moved : step isClusterContinuing s (.compositionstart nowMs selection) = .ok s') :
    s'.Agrees ∧ Effect s s' (.compositionstart nowMs selection) := by
  have ⟨controller, ran⟩ : ∃ controller, controller =
      stateOf ((handleCompositionStart nowMs selection).run s.controller) := ⟨_, rfl⟩
  have after : s' = s.record controller (.compositionstart nowMs selection) := by
    rw [ran]
    exact (Except.ok.inj moved).symm
  by_cases blocked : s.opened.isSome = true ∨ s.controller.sync.engine.isNone = true
  · have unchanged : controller = s.controller := by
      have stays : s.controller.sync.engine.isNone = true ∨ s.controller.composing = true := by
        rw [agrees.composing]
        exact blocked.symm
      rw [ran, handleCompositionStart, run_get_bind, if_pos stays]
      rfl
    have whole : s' = s := by
      rw [after, record, if_pos blocked, unchanged]
    rw [whole]
    exact ⟨agrees, fun e resident => ⟨e, resident, List.Sublist.refl _⟩⟩
  · have ⟨closed, present⟩ := not_or.mp blocked
    have unopened : s.opened = none := Option.not_isSome_iff_eq_none.mp closed
    have ⟨e, resident⟩ := Option.ne_none_iff_exists'.mp (mt Option.isNone_iff_eq_none.mpr present)
    have idle : s.controller.composing = false := by
      rw [agrees.composing, unopened]
      rfl
    have returns := undisturbed unopened (by rw [resident]; rfl)
    have ⟨c', e', opened, resident', issued', less, composing, lastData⟩ :=
      start_opens resident (agrees.issued e resident) idle rfl returns
    have engine : controller.sync.engine = some e' := by
      rw [ran, opened]
      exact resident'
    have anchorId : controller.anchorId =
        e'.resolvePresenceAnchor (s.selected selection).start := by
      rw [ran, opened]
      show c'.sync.engine.bind _ = _
      rw [resident']
      rfl
    have whole : s' =
        ⟨controller, some (e'.resolvePresenceAnchor (s.selected selection).start), []⟩ := by
      rw [after, record, if_neg blocked, engine]
      rfl
    rw [whole]
    refine ⟨⟨?_, ?_, ?_, ?_, ?_⟩, fun e₁ same => ?_⟩
    · intro e₁ same
      cases engine.symm.trans same
      exact issued'
    · show controller.composing = true
      rw [ran, opened]
      exact composing
    · show controller.watchdogArmed = true
      rw [ran, opened]
    · show controller.observing = false
      rw [ran, opened]
    · intro anchor same
      have its : e'.resolvePresenceAnchor (s.selected selection).start = anchor :=
        Option.some.inj same
      refine ⟨anchorId.trans its, ?_, e', engine, ?_⟩
      · show controller.lastData = []
        rw [ran, opened]
        exact lastData
      · rw [← its]
        exact knows_resolvePresenceAnchor e' _
    · cases resident.symm.trans same
      exact ⟨e', engine, less⟩

/-- One undisturbed event. -/
theorem Agrees.step (agrees : s.Agrees) {event : CompositionEvent}
    (undisturbed : Undisturbed isClusterContinuing s event)
    (moved : step isClusterContinuing s event = .ok s') : s'.Agrees ∧ Effect s s' event := by
  cases event with
  | compositionstart nowMs selection => exact agrees.compositionstart undisturbed moved
  | compositionupdate data => exact agrees.compositionupdate moved
  | compositionend nowMs data => exact agrees.compositionend undisturbed moved
  | watchdog nowMs => exact agrees.watchdog undisturbed moved
  | remoteOps remote => exact agrees.remoteOps moved

/-- An editor with an empty document. -/
def blank : Composition :=
  ⟨⟨false, none, [], false, 0, SyncClient.joined 1, ⟨some [], [], true, 0⟩, true⟩, none, []⟩

theorem blank_started : blank.Started where
  opened := rfl
  composing := rfl
  watchdogArmed := rfl
  observing := rfl
  issued e resident := by
    cases resident
    exact ⟨1, Run.Reaches.refl _⟩

/-- The client that typed `ab`, with its next socket connecting. -/
def halted : Composition :=
  ⟨⟨false, none, [], false, 0, SyncClient.reconnecting,
    ⟨some [0], [⟨⟨0, [97, 98]⟩, 0, 2, 2⟩], true, 1⟩, true⟩, none, []⟩

/-- The letter `b`. -/
def lastLetter : SelectionRange := ⟨.text ⟨0, [97, 98]⟩, 1, .text ⟨0, [97, 98]⟩, 2⟩

theorem halted_started : halted.Started where
  opened := rfl
  composing := rfl
  watchdogArmed := rfl
  observing := rfl
  issued e resident := by
    have new : (Engine.new 1).Issued := ⟨1, Run.Reaches.refl _⟩
    rcases SyncClient.localInsertText_outcome (fun _ => false) 0 (c := SyncClient.joined 1) rfl new
      (Nat.zero_le _) [97, 98] with ⟨refused, _⟩ | ⟨_, e', _, c', passed, resident', issued', _⟩
    · exact absurd ⟨rfl, rfl⟩ refused
    · have left : (SyncClient.joined 1).perform (fun _ => false) 0 (.localInsertText 0 [97, 98]) =
          c' := by
        rw [Nat.cast_zero] at passed
        rw [SyncClient.perform]
        rcases passed with ⟨_, ran⟩ | ran <;> rw [ran] <;> rfl
      have same : SyncClient.reconnecting.engine = c'.engine := by
        rw [SyncClient.reconnecting, left]
      have same' : e' = e := Option.some.inj (resident'.symm.trans (same.symm.trans resident))
      exact same' ▸ issued'

end Composition

end ConfluenceEditor
