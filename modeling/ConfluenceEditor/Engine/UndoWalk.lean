/-
Walks of undo and redo.

A walk presses undo and redo in any order, with nothing in between. Every step crosses one entry,
which then stands reversed on the other stack; as long as a node stays deleted, the entries about it
keep what their reversal does to it. So a node whose deletion belongs to another replica can be made
visible exactly when the stacks hold both a reversal that deletes it, which takes over the
attribution, and one that undeletes it (`Built.resurrects_iff`).
-/

import ConfluenceEditor.Engine.LocalEdit
import ConfluenceEditor.Library.Run

namespace ConfluenceEditor

/-- One key press of a walk. -/
inductive UndoMove where
  | undo
  | redo
  deriving DecidableEq, Repr

namespace UndoMove

/-- The stack that the step pops from. -/
def popFrom (e : Engine) : UndoMove → List UndoStackEntry
  | undo => e.undoStack
  | redo => e.redoStack

/-- The stack that the step pushes to. -/
def pushTo (e : Engine) : UndoMove → List UndoStackEntry
  | undo => e.redoStack
  | redo => e.undoStack

end UndoMove

namespace Engine

def walk (e : Engine) : UndoMove → Except String Engine
  | .undo => e.undo.map Prod.snd
  | .redo => e.redo.map Prod.snd

/-- An insert on a stack had its effect: only `localInsert` pushes one. -/
def SoundEntries (stack : List UndoStackEntry) : Prop :=
  ∀ entry ∈ stack, ∀ ins, entry.op = .insert ins → entry.hadEffect = true

/-- What the reversal of an entry does to one node. -/
def reversalOf (target : Identifier) (entry : UndoStackEntry) : Option InverseKind :=
  if entry.op.target = target then
    match reversal entry with
    | .ok (kind, _) => some kind
    | .error _ => none
  else none

def reversals (target : Identifier) (stack : List UndoStackEntry) : List InverseKind :=
  stack.filterMap (reversalOf target)

/-- The stacks hold both kinds of reversals of the node. -/
def Mixed (e : Engine) (target : Identifier) : Prop :=
  .delete ∈ reversals target (e.undoStack ++ e.redoStack) ∧
    .undelete ∈ reversals target (e.undoStack ++ e.redoStack)

instance (e : Engine) (target : Identifier) : Decidable (e.Mixed target) :=
  inferInstanceAs (Decidable (_ ∧ _))

/-- The node is part of the document and visible. -/
def Shows (e : Engine) (target : Identifier) : Prop :=
  ∃ n ∈ e.nodes, n.id = target ∧ n.deleted = false

theorem SoundEntries.reversal_ok {stack : List UndoStackEntry} (sound : SoundEntries stack)
    {entry : UndoStackEntry} (member : entry ∈ stack) :
    ∃ kind, reversal entry = .ok (kind, entry.op.target) := by
  cases chosen : reversal entry with
  | ok shape =>
      obtain ⟨kind, target⟩ := shape
      obtain rfl : target = entry.op.target := Built.reversal_target chosen
      exact ⟨kind, rfl⟩
  | error message =>
      unfold reversal at chosen
      split_ifs at chosen with effect
      cases op : entry.op with
      | insert ins => exact absurd (sound entry member ins op) effect
      | delete del => rw [op] at chosen; cases chosen
      | undelete und => rw [op] at chosen; cases chosen

/-- A reversal that changed nothing is repeated. -/
theorem reversal_repeat (id target : Identifier) (kind : InverseKind) :
    reversal ⟨inverseOperation id target kind, false⟩ = .ok (kind, target) := by
  cases kind <;> rfl

theorem reversals_cons_other {target : Identifier} {entry : UndoStackEntry}
    {stack : List UndoStackEntry} (other : entry.op.target ≠ target) :
    reversals target (entry :: stack) = reversals target stack :=
  List.filterMap_cons_none (if_neg other)

theorem reversals_cons_same {target : Identifier} {entry : UndoStackEntry} {kind : InverseKind}
    {stack : List UndoStackEntry} (same : entry.op.target = target)
    (chosen : reversal entry = .ok (kind, entry.op.target)) :
    reversals target (entry :: stack) = kind :: reversals target stack := by
  have image : reversalOf target entry = some kind := by
    rw [reversalOf, if_pos same, chosen]
  exact List.filterMap_cons_some image

end Engine

open Engine

/-! ### One step of a walk -/

/-- The attribution of a deleted node after an entry about it was crossed: a delete takes it over,
an undelete clears it when it is the replica's own. -/
def AfterCrossing (replicaId : Nat) (before : Identifier) (after : Option Identifier) :
    InverseKind → Prop
  | .delete => ∃ d, after = some d ∧ d.r = replicaId
  | .undelete => after = if before.r = replicaId then none else some before

/-- What a step does to the attribution of one deleted node and to the reversals of it. -/
structure Crossed (m : UndoMove) (target : Identifier) (e e' : Engine) (before : Identifier)
    (after : Option Identifier) (kind : InverseKind) : Prop where
  popped : reversals target (m.popFrom e) = kind :: reversals target (m.popFrom e')
  pushed : after ≠ none → reversals target (m.pushTo e') = kind :: reversals target (m.pushTo e)
  attribution : AfterCrossing e.replicaId before after kind

/-- A step that crosses no entry about the node. -/
structure Passed (m : UndoMove) (target : Identifier) (e e' : Engine) (before : Identifier)
    (after : Option Identifier) : Prop where
  popped : reversals target (m.popFrom e') = reversals target (m.popFrom e)
  pushed : reversals target (m.pushTo e') = reversals target (m.pushTo e)
  attribution : after = some before

/-- The state after a step of a walk. -/
structure Walked (m : UndoMove) (e e' : Engine) (history later : List Operation) : Prop where
  built : Built e' (history ++ later)
  replicaId : e'.replicaId = e.replicaId
  sound : SoundEntries (e'.undoStack ++ e'.redoStack)
  shorter : (m.popFrom e').length = (m.popFrom e).length - 1
  node : ∀ target d, dotOf history target = some d →
    Passed m target e e' d (dotOf (history ++ later) target) ∨
      ∃ kind, Crossed m target e e' d (dotOf (history ++ later) target) kind

namespace Built

variable {e e' : Engine} {history : List Operation}

/-- The two stacks after a step, whichever of the two key presses it was. -/
def restack (e : Engine) (popped pushed : List UndoStackEntry) : UndoMove → Engine
  | .undo => { e with undoStack := popped, redoStack := pushed }
  | .redo => { e with undoStack := pushed, redoStack := popped }

theorem walk_eq (e : Engine) (m : UndoMove) :
    e.walk m = (e.stepUndoRedo (m.popFrom e) (m.pushTo e)).map fun result =>
      restack result.2.1 result.2.2.1 result.2.2.2 m := by
  cases m
  · simp only [walk, undo, UndoMove.popFrom, UndoMove.pushTo]
    cases e.stepUndoRedo e.undoStack e.redoStack <;> rfl
  · simp only [walk, redo, UndoMove.popFrom, UndoMove.pushTo]
    cases e.stepUndoRedo e.redoStack e.undoStack <;> rfl

@[simp] theorem popFrom_restack (e : Engine) (popped pushed : List UndoStackEntry)
    (m : UndoMove) : m.popFrom (restack e popped pushed m) = popped := by
  cases m <;> rfl

@[simp] theorem pushTo_restack (e : Engine) (popped pushed : List UndoStackEntry)
    (m : UndoMove) : m.pushTo (restack e popped pushed m) = pushed := by
  cases m <;> rfl

theorem sound_iff (e : Engine) (m : UndoMove) : SoundEntries (e.undoStack ++ e.redoStack) ↔
    SoundEntries (m.popFrom e ++ m.pushTo e) := by
  simp only [SoundEntries, List.mem_append]
  cases m with
  | undo => rfl
  | redo => simp only [UndoMove.popFrom, UndoMove.pushTo, or_comm]

/-- A fresh delete takes the attribution, an undelete clears only its own replica's. -/
theorem crossing_attribution (built : Built e history) {target d : Identifier}
    (dot : dotOf history target = some d) (kind : InverseKind) :
    AfterCrossing e.replicaId d
      (dotOf (history ++ [inverseOperation e.mint.1 target kind]) target) kind := by
  rw [dotOf_append_singleton, dot]
  cases kind with
  | delete =>
      have older : d < e.mint.1 :=
        Identifier.lt_iff.mpr (Or.inl (Nat.lt_succ_of_le (built.clock _ (deletes_of_dotOf dot))))
      refine ⟨e.mint.1, ?_, rfl⟩
      rw [inverseOperation, stepDot, if_pos rfl, laterDelete, if_pos (compareIds_pos_iff.mpr older)]
  | undelete =>
      rw [inverseOperation, stepDot, if_pos rfl]
      rfl

/-- Every step of a walk on sound stacks succeeds. -/
theorem walk_spec (built : Built e history) (sound : SoundEntries (e.undoStack ++ e.redoStack))
    (m : UndoMove) : ∃ e' later, e.walk m = .ok e' ∧ Walked m e e' history later := by
  rw [sound_iff e m] at sound
  rw [walk_eq]
  obtain ⟨nothing, ended⟩ | ⟨entry, rest, stack, cases⟩ :=
    stepUndoRedo_cases e (m.popFrom e) (m.pushTo e)
  · rw [ended]
    refine ⟨_, [], rfl, ?_, ?_, ?_, ?_, fun target d dot => Or.inl ⟨?_, ?_, ?_⟩⟩
    · rw [List.append_nil]
      cases m <;> exact built.congr rfl rfl (le_refl _)
    · cases m <;> rfl
    · rw [sound_iff _ m]
      simpa [nothing] using sound
    · simp [nothing]
    · simp [nothing]
    · simp
    · rwa [List.append_nil]
  have pop : SoundEntries (rest ++ m.pushTo e) := fun x member => sound x (by
    rw [stack]
    exact List.mem_cons_of_mem _ member)
  rcases cases with ⟨absent, ended⟩ | ⟨message, thrown, -, -⟩ | ⟨kind, chosen, present⟩
  · -- the entry's node is gone
    rw [ended]
    refine ⟨_, [], rfl, ?_, ?_, ?_, ?_, fun target d dot => Or.inl ⟨?_, ?_, ?_⟩⟩
    · rw [List.append_nil]
      cases m <;> exact built.congr rfl rfl (le_refl _)
    · cases m <;> rfl
    · rw [sound_iff _ m]
      simpa using pop
    · simp [stack]
    · have other : entry.op.target ≠ target := by
        rintro rfl
        obtain ⟨ins, inserted, same⟩ := built.causal.met (deletes_of_dotOf dot) _ rfl
        rw [built.hasIdentifier_iff.mpr ⟨ins, inserted, same⟩] at absent
        cases absent
      rw [popFrom_restack, stack, reversals_cons_other other]
    · simp
    · rwa [List.append_nil]
  · obtain ⟨kind, chosen⟩ := sound.reversal_ok (show entry ∈ _ by simp [stack])
    rw [thrown] at chosen
    cases chosen
  · obtain ⟨e₁, ended, minted⟩ := built.stepUndoRedo_entry present chosen rest (m.pushTo e)
    set inv := inverseOperation e.mint.1 entry.op.target kind with hinv
    rw [stack, ended]
    set effect := (dotOf history entry.op.target).isSome !=
      (dotOf (history ++ [inv]) entry.op.target).isSome with heffect
    have minted' : Minted e (restack e₁ rest (⟨inv, effect⟩ :: m.pushTo e) m) history [inv] := by
      cases m <;> exact minted _ _
    refine ⟨_, [inv], rfl, minted'.built, minted'.replicaId, ?_, by simp [stack],
      fun target d dot => ?_⟩
    · rw [sound_iff _ m, popFrom_restack, pushTo_restack]
      intro x member ins same
      rcases List.mem_append.mp member with old | new
      · exact pop x (List.mem_append_left _ old) ins same
      · rcases List.mem_cons.mp new with rfl | old
        · exact absurd same (by rw [hinv]; exact inverseOperation_ne_insert _ _ kind ins)
        · exact pop x (List.mem_append_right _ old) ins same
    · by_cases here : entry.op.target = target
      · subst here
        refine Or.inr ⟨kind, ?_, fun kept => ?_, built.crossing_attribution dot kind⟩
        · rw [stack, reversals_cons_same rfl chosen, popFrom_restack]
        · -- the node was and is deleted, so the reversal had no effect
          have idle : effect = false := by
            rw [heffect, dot, Option.isSome_iff_ne_none.mpr kept]
            rfl
          have repeated : reversal ⟨inv, effect⟩ = .ok (kind, inv.target) := by
            rw [idle, hinv, reversal_repeat, inverseOperation_target]
          have about : inv.target = entry.op.target := by rw [hinv, inverseOperation_target]
          rw [pushTo_restack]
          exact reversals_cons_same about repeated
      · refine Or.inl ⟨?_, ?_, ?_⟩
        · rw [stack, reversals_cons_other here, popFrom_restack]
        · rw [pushTo_restack, reversals_cons_other (by simpa [hinv] using here)]
        · rw [dotOf_append_singleton, dot, hinv]
          cases kind <;> exact if_neg here

/-! ### Whole walks -/

variable {target d : Identifier}

theorem mem_reversals_iff (e : Engine) (m : UndoMove) {kind : InverseKind} :
    kind ∈ reversals target (e.undoStack ++ e.redoStack) ↔
      kind ∈ reversals target (m.popFrom e) ∨ kind ∈ reversals target (m.pushTo e) := by
  rw [reversals, List.filterMap_append, List.mem_append]
  cases m with
  | undo => rfl
  | redo => exact or_comm

/-- A step that leaves the node deleted keeps what the stacks hold about it. -/
theorem mem_reversals_of_walked {m : UndoMove} {later : List Operation}
    (walked : Walked m e e' history later) (dot : dotOf history target = some d)
    (deleted : dotOf (history ++ later) target ≠ none) {kind : InverseKind} :
    kind ∈ reversals target (e'.undoStack ++ e'.redoStack) ↔
      kind ∈ reversals target (e.undoStack ++ e.redoStack) := by
  rw [mem_reversals_iff e' m, mem_reversals_iff e m]
  rcases walked.node target d dot with passed | ⟨crossing, crossed⟩
  · rw [passed.popped, passed.pushed]
  · rw [crossed.popped, crossed.pushed deleted, List.mem_cons, List.mem_cons]
    tauto

theorem shows_iff (built : Built e history) : e.Shows target ↔
    e.tree.hasIdentifier target = true ∧ dotOf history target = none := by
  rw [built.wf.hasIdentifier_iff, Shows, built.nodes_eq]
  constructor
  · rintro ⟨n, member, rfl, visible⟩
    refine ⟨⟨n, member, rfl⟩, ?_⟩
    rw [built.deleted n member, built.deletedBy n member] at visible
    simpa using visible
  · rintro ⟨⟨n, member, rfl⟩, dot⟩
    refine ⟨n, member, rfl, ?_⟩
    rw [built.deleted n member, built.deletedBy n member, dot]
    rfl

/-- What a walk keeps while the stacks hold no pair of reversals that could take the node over and
then undelete it. -/
structure Guarded (target : Identifier) (e : Engine) (history : List Operation) : Prop where
  built : Built e history
  sound : SoundEntries (e.undoStack ++ e.redoStack)
  kept : ∃ d, dotOf history target = some d ∧
    (.undelete ∉ reversals target (e.undoStack ++ e.redoStack) ∨
      .delete ∉ reversals target (e.undoStack ++ e.redoStack) ∧ d.r ≠ e.replicaId)

theorem Guarded.step {m : UndoMove} (guarded : Guarded target e history)
    (moved : e.walk m = .ok e') : ∃ later, Guarded target e' (history ++ later) := by
  obtain ⟨d, dot, safe⟩ := guarded.kept
  obtain ⟨e₁, later, done, walked⟩ := guarded.built.walk_spec guarded.sound m
  obtain rfl := Except.ok.inj (done.symm.trans moved)
  have attribution : ∃ d', dotOf (history ++ later) target = some d' ∧
      (.undelete ∉ reversals target (e.undoStack ++ e.redoStack) ∨
        .delete ∉ reversals target (e.undoStack ++ e.redoStack) ∧ d'.r ≠ e.replicaId) := by
    rcases walked.node target d dot with passed | ⟨kind, crossed⟩
    · exact ⟨d, passed.attribution, safe⟩
    · have onStack : kind ∈ reversals target (e.undoStack ++ e.redoStack) := by
        rw [mem_reversals_iff e m, crossed.popped]
        exact Or.inl List.mem_cons_self
      have after := crossed.attribution
      cases kind with
      | delete =>
          obtain ⟨d', same, -⟩ := after
          exact ⟨d', same, safe.imp_right fun both => absurd onStack both.1⟩
      | undelete =>
          have foreign := safe.resolve_left fun none => none onStack
          rw [AfterCrossing, if_neg foreign.2] at after
          exact ⟨d, after, Or.inr foreign⟩
  obtain ⟨d', same, safe'⟩ := attribution
  have kept : ∀ {kind}, kind ∈ reversals target (e₁.undoStack ++ e₁.redoStack) ↔
      kind ∈ reversals target (e.undoStack ++ e.redoStack) :=
    mem_reversals_of_walked walked dot (by rw [same]; simp)
  refine ⟨later, walked.built, walked.sound, d', same, ?_⟩
  rwa [kept, kept, walked.replicaId]

/-- The state after a walk over a whole stack, when the node stayed deleted. -/
structure WalkedOver (m : UndoMove) (target : Identifier) (e e' : Engine) (history' : List Operation)
    (before after : Identifier) : Prop where
  built : Built e' history'
  replicaId : e'.replicaId = e.replicaId
  sound : SoundEntries (e'.undoStack ++ e'.redoStack)
  emptied : m.popFrom e' = []
  attribution : dotOf history' target = some after
  kept : ∀ kind, kind ∈ reversals target (e'.undoStack ++ e'.redoStack) ↔
    kind ∈ reversals target (e.undoStack ++ e.redoStack)
  stillOwn : before.r = e.replicaId → after.r = e.replicaId
  takenOver : .delete ∈ reversals target (m.popFrom e) → after.r = e.replicaId
  safe : before.r = e.replicaId → .undelete ∉ reversals target (m.popFrom e)

/-- Walking over a whole stack shows the node on the way, or leaves it deleted. -/
theorem sweep (m : UndoMove) (n : Nat) {e : Engine} {history : List Operation} {d : Identifier}
    (built : Built e history) (sound : SoundEntries (e.undoStack ++ e.redoStack))
    (length : (m.popFrom e).length = n) (dot : dotOf history target = some d) :
    (∃ moves e', Run.run walk e moves = .ok e' ∧ e'.Shows target) ∨
      ∃ moves e' history' d', Run.run walk e moves = .ok e' ∧
        WalkedOver m target e e' history' d d' := by
  induction n generalizing e history d with
  | zero =>
      have nothing : m.popFrom e = [] := List.length_eq_zero_iff.mp length
      refine Or.inr ⟨[], e, history, d, rfl, built, rfl, sound, nothing, dot, fun _ => Iff.rfl, id,
        ?_, ?_⟩
      · simp [nothing, reversals]
      · simp [nothing, reversals]
  | succ n ih =>
      obtain ⟨e₁, later, moved, walked⟩ := built.walk_spec sound m
      have one : Run.run walk e [m] = .ok e₁ := by simp [Run.run, moved]
      cases dot₁ : dotOf (history ++ later) target with
      | none =>
          refine Or.inl ⟨[m], e₁, one, walked.built.shows_iff.mpr ⟨?_, dot₁⟩⟩
          obtain ⟨ins, inserted, same⟩ := built.causal.met (deletes_of_dotOf dot) target rfl
          exact walked.built.hasIdentifier_iff.mpr ⟨ins, List.mem_append_left _ inserted, same⟩
      | some d₁ =>
          have rest := ih walked.built walked.sound (by rw [walked.shorter, length]; rfl) dot₁
          have kept : ∀ kind, kind ∈ reversals target (e₁.undoStack ++ e₁.redoStack) ↔
              kind ∈ reversals target (e.undoStack ++ e.redoStack) := fun kind =>
            mem_reversals_of_walked walked dot (by rw [dot₁]; simp)
          rcases rest with ⟨moves, e', ran, shown⟩ | ⟨moves, e', history', d', ran, swept⟩
          · exact Or.inl ⟨m :: moves, e', (Run.run_append one).trans ran, shown⟩
          have own := walked.replicaId
          have stillOwn := swept.stillOwn
          have takenOver := swept.takenOver
          have safe := swept.safe
          rw [own] at stillOwn takenOver safe
          -- what the first step does to the attribution, followed by the rest of the walk
          have whole : (d.r = e.replicaId → d'.r = e.replicaId) ∧
              (.delete ∈ reversals target (m.popFrom e) → d'.r = e.replicaId) ∧
              (d.r = e.replicaId → .undelete ∉ reversals target (m.popFrom e)) := by
            have step := walked.node target d dot
            rw [dot₁] at step
            rcases step with passed | ⟨kind, crossed⟩
            · obtain rfl : d₁ = d := Option.some.inj passed.attribution
              rw [passed.popped] at takenOver safe
              exact ⟨stillOwn, takenOver, safe⟩
            · rw [crossed.popped]
              have after := crossed.attribution
              cases kind with
              | delete =>
                  obtain ⟨d₂, same, taken⟩ := after
                  obtain rfl := Option.some.inj same
                  exact ⟨fun _ => stillOwn taken, fun _ => stillOwn taken, fun _ => by
                    simpa using safe taken⟩
              | undelete =>
                  rw [AfterCrossing] at after
                  split_ifs at after with mine
                  obtain rfl := Option.some.inj after
                  exact ⟨fun same => absurd same mine, fun onStack => takenOver (by
                    simpa using onStack), fun same => absurd same mine⟩
          exact Or.inr ⟨m :: moves, e', history', d', (Run.run_append one).trans ran, swept.built,
            swept.replicaId.trans own, swept.sound, swept.emptied, swept.attribution,
            fun kind => (swept.kept kind).trans (kept kind), whole.1, whole.2.1, whole.2.2⟩

/-- A node whose deletion belongs to another replica can be made visible by a walk exactly when the
stacks hold both kinds of reversals of it. -/
theorem resurrects_iff (built : Built e history)
    (sound : SoundEntries (e.undoStack ++ e.redoStack)) (dot : dotOf history target = some d)
    (foreign : d.r ≠ e.replicaId) :
    (∃ moves e', Run.run walk e moves = .ok e' ∧ e'.Shows target) ↔ e.Mixed target := by
  constructor
  · rintro ⟨moves, e', ran, shown⟩
    by_contra pure
    have safe : .undelete ∉ reversals target (e.undoStack ++ e.redoStack) ∨
        .delete ∉ reversals target (e.undoStack ++ e.redoStack) ∧ d.r ≠ e.replicaId := by
      rw [Mixed, not_and_or] at pure
      exact pure.symm.imp_right fun none => ⟨none, foreign⟩
    have reached : Run.Reaches walk e e' := ⟨moves, ran⟩
    have always : ∃ history', Guarded target e' history' := by
      refine @Run.Reaches.invariant _ _ _ _ (fun s => ∃ history, Guarded target s history) e e' reached
        ⟨history, built, sound, d, dot, safe⟩ ?_
      rintro s m s' ⟨history, guarded⟩ moved
      obtain ⟨later, guarded'⟩ := guarded.step moved
      exact ⟨_, guarded'⟩
    obtain ⟨history', guarded⟩ := always
    obtain ⟨d', still, -⟩ := guarded.kept
    rw [(guarded.built.shows_iff.mp shown).2] at still
    cases still
  · rintro ⟨deletes, undeletes⟩
    -- undo everything, redo everything and undo everything: the last sweep crosses the undelete
    -- after the second one crossed the delete
    obtain shown | ⟨moves₁, e₁, history₁, d₁, ran₁, swept₁⟩ := built.sweep .undo _ sound rfl dot
    · exact shown
    obtain ⟨moves₂, e₂, ran₂, shown⟩ | ⟨moves₂, e₂, history₂, d₂, ran₂, swept₂⟩ :=
      swept₁.built.sweep .redo _ swept₁.sound rfl swept₁.attribution
    · exact ⟨moves₁ ++ moves₂, e₂, (Run.run_append ran₁).trans ran₂, shown⟩
    obtain ⟨moves₃, e₃, ran₃, shown⟩ | ⟨moves₃, e₃, history₃, d₃, ran₃, swept₃⟩ :=
      swept₂.built.sweep .undo _ swept₂.sound rfl swept₂.attribution
    · exact ⟨moves₁ ++ (moves₂ ++ moves₃), e₃,
        (Run.run_append ran₁).trans ((Run.run_append ran₂).trans ran₃), shown⟩
    have onRedo : .delete ∈ reversals target (UndoMove.redo.popFrom e₁) := by
      have whole := (swept₁.kept .delete).mpr deletes
      rw [mem_reversals_iff e₁ .undo, swept₁.emptied] at whole
      exact whole.resolve_left (by simp [reversals])
    have onUndo : .undelete ∈ reversals target (UndoMove.undo.popFrom e₂) := by
      have whole := (swept₂.kept .undelete).mpr ((swept₁.kept .undelete).mpr undeletes)
      rw [mem_reversals_iff e₂ .redo, swept₂.emptied] at whole
      exact whole.resolve_left (by simp [reversals])
    have taken := swept₂.takenOver onRedo
    exact absurd onUndo (swept₃.safe (taken.trans swept₂.replicaId.symm))

end Built

end ConfluenceEditor
