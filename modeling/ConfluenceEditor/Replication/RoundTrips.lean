/-
The round trip of undo and redo.

Undoing `n` steps crosses the top `n` entries of the stack, and redoing them crosses their answers:
a reachable engine follows `Hold.stops` and `Hold.answers`, whatever operations arrived before
(`Reachable.follow`). So the redos walk back through the texts seen on the way down, and further
undos through the same texts again, exactly when no node that another replica deleted meets an
undelete first and a delete later on that part of the stack (`undo_redo_iff`).

A replica that deleted its own character, and then received another replica's deletion of it, makes
no round trip: its two undos show nothing, and its second redo shows the character
(`redo_shows_lost`).
-/

import ConfluenceEditor.Engine.Holds
import ConfluenceEditor.Engine.UndoWalk
import ConfluenceEditor.Replication.Provenance
import ConfluenceEditor.Replication.Seeding

namespace ConfluenceEditor

/-- What a node with this attribution is to a replica. -/
def Hold.of (replicaId : Nat) : Option Identifier → Hold
  | none => .shown
  | some d => if d.r = replicaId then .own else .foreign

/-- What a node of the tree is to a replica. -/
def FugueTree.hold (t : FugueTree) (replicaId : Nat) (id : Identifier) : Hold :=
  match t.nodeByIdentifier id with
  | none => .shown
  | some n => .of replicaId n.deletedBy

namespace Engine

def hold (e : Engine) : Identifier → Hold := e.tree.hold e.replicaId

/-- The code points that the document shows. -/
def characters (e : Engine) : List Nat := e.visible.map Node.value

/-- One key press with its outcome. -/
def press (e : Engine) : UndoMove → Except String (UndoOutcome × Engine)
  | .undo => e.undo
  | .redo => e.redo

/-- The same key pressed `n` times, with an operation applied each time, and what was shown after
each. -/
def pressed (m : UndoMove) : Nat → Engine → Option (List (List Nat) × Engine)
  | 0, e => some ([], e)
  | n + 1, e =>
      match e.press m with
      | .ok (.applied _, e₁) =>
          (pressed m n e₁).map fun rest => (e₁.characters :: rest.1, rest.2)
      | _ => none

/-- The reversals that lie on a stack. -/
def moves (stack : List UndoStackEntry) : List (Identifier × InverseKind) :=
  stack.filterMap fun entry =>
    match reversal entry with
    | .ok (kind, target) => some (target, kind)
    | .error _ => none

/-- A step would apply the reversal of the entry. -/
def Reversible (e : Engine) (entry : UndoStackEntry) : Prop :=
  e.tree.hasIdentifier entry.op.target = true ∧ ∃ kind, reversal entry = .ok (kind, entry.op.target)

variable {e e' : Engine} {stack : List UndoStackEntry} {entry : UndoStackEntry}
  {target : Identifier} {kind : InverseKind}

theorem moves_cons (chosen : reversal entry = .ok (kind, target)) :
    moves (entry :: stack) = (target, kind) :: moves stack :=
  List.filterMap_cons_some (by rw [chosen])

theorem moves_append (first second : List UndoStackEntry) :
    moves (first ++ second) = moves first ++ moves second :=
  List.filterMap_append

theorem kinds_moves (target : Identifier) (stack : List UndoStackEntry) :
    Hold.kinds target (moves stack) = reversals target stack := by
  rw [Hold.kinds, moves, reversals, List.filterMap_filterMap]
  refine List.filterMap_congr fun entry _ => ?_
  rw [reversalOf]
  cases chosen : reversal entry with
  | error message => simp
  | ok shape =>
      obtain ⟨kind, about⟩ := shape
      obtain rfl : about = entry.op.target := Built.reversal_target chosen
      rfl

/-! ### One step -/

theorem hold_flag {t t' : FugueTree} (wf : t.WF) (wf' : t'.WF) {n : Node} (member : n ∈ t.nodes)
    {deleted : Bool} {deletedBy : Option Identifier}
    (list : t'.nodes = t.nodes.map (FugueTree.flag n.id deleted deletedBy)) (replicaId : Nat) :
    t'.hold replicaId = Function.update (t.hold replicaId) n.id (.of replicaId deletedBy) := by
  funext id
  by_cases same : id = n.id
  · subst same
    have found : t'.nodeByIdentifier n.id = some { n with deleted, deletedBy } := by
      refine wf'.nodeByIdentifier_eq_some_iff.mpr ⟨?_, rfl⟩
      rw [list]
      exact List.mem_map.mpr ⟨n, member, if_pos rfl⟩
    rw [Function.update_self, FugueTree.hold, found]
  · rw [Function.update_of_ne same, FugueTree.hold, FugueTree.hold]
    have found : t'.nodeByIdentifier id = t.nodeByIdentifier id := by
      cases before : t.nodeByIdentifier id with
      | none =>
          refine wf'.nodeByIdentifier_eq_none_iff.mpr fun m inside => ?_
          rw [list] at inside
          obtain ⟨x, old, rfl⟩ := List.mem_map.mp inside
          rw [FugueTree.flag_id]
          exact wf.nodeByIdentifier_eq_none_iff.mp before x old
      | some x =>
          obtain ⟨old, named⟩ := wf.nodeByIdentifier_eq_some_iff.mp before
          refine wf'.nodeByIdentifier_eq_some_iff.mpr ⟨?_, named⟩
          rw [list]
          exact List.mem_map.mpr ⟨x, old, if_neg fun other => same (named.symm.trans other)⟩
    rw [found]

theorem Sound.hold_eq (sound : e.Sound) {n : Node} (member : n ∈ e.tree.nodes) :
    e.hold n.id = .of e.replicaId n.deletedBy := by
  rw [hold, FugueTree.hold, sound.wf.nodeByIdentifier_eq_some_iff.mpr ⟨member, rfl⟩]

theorem hasIdentifier_of_skeleton {t t' : FugueTree} (wf : t.WF) (wf' : t'.WF)
    (skeleton : t'.nodes.map Node.toInsert = t.nodes.map Node.toInsert) (id : Identifier) :
    t'.hasIdentifier id = t.hasIdentifier id := by
  have ids := congrArg (List.map InsertOperation.id) skeleton
  rw [List.map_map, List.map_map] at ids
  rw [Bool.eq_iff_iff, wf'.hasIdentifier_iff, wf.hasIdentifier_iff, ← List.mem_map, ← List.mem_map]
  exact Eq.to_iff (congrArg (id ∈ ·) ids)

/-- What applying a reversal does to the nodes. -/
structure Turned (e e' : Engine) (target : Identifier) (kind : InverseKind) : Prop where
  wf : e'.tree.WF
  skeleton : e'.tree.nodes.map Node.toInsert = e.tree.nodes.map Node.toInsert
  replicaId : e'.replicaId = e.replicaId
  hold : e'.hold = Hold.crossed e.hold (target, kind)

theorem turned_of_flag (sound : e.Sound) {n : Node} (member : n ∈ e.tree.nodes) {tree : FugueTree}
    (wf : tree.WF) {deleted : Bool} {deletedBy : Option Identifier}
    (list : tree.nodes = e.tree.nodes.map (FugueTree.flag n.id deleted deletedBy))
    (contexts : Identifier → Option DeleteContext)
    (next : Hold.of e.replicaId deletedBy = Hold.cross kind (.of e.replicaId n.deletedBy)) :
    Turned e { e.mint.2 with tree, deleteContext := contexts } n.id kind where
  wf := wf
  skeleton := by
    show tree.nodes.map Node.toInsert = _
    rw [list, List.map_map]
    exact List.map_congr_left fun m _ => FugueTree.flag_toInsert ..
  replicaId := rfl
  hold := by
    show tree.hold e.replicaId = Hold.crossed e.hold (n.id, kind)
    rw [hold_flag sound.wf wf member list, next, Hold.crossed, sound.hold_eq member]
    rfl

theorem turned_of_spared (sound : e.Sound) {n : Node} (member : n ∈ e.tree.nodes)
    (spared : Hold.cross kind (.of e.replicaId n.deletedBy) = .of e.replicaId n.deletedBy) :
    Turned e e.mint.2 n.id kind where
  wf := sound.wf
  skeleton := rfl
  replicaId := rfl
  hold := by
    show e.hold = Hold.crossed e.hold (n.id, kind)
    rw [Hold.crossed, sound.hold_eq member, spared, ← sound.hold_eq member, Function.update_eq_self]

/-- The reversal that was just minted is later than the deletion it meets. -/
theorem Reachable.turn (reachable : e.Reachable) {n : Node} (member : n ∈ e.tree.nodes)
    (kind : InverseKind) :
    ∃ e', e.mint.2.applyKind (inverseOperation e.mint.1 n.id kind) = .ok e' ∧
      Turned e e' n.id kind := by
  have sound := reachable.sound
  have present : e.tree.hasIdentifier n.id = true := sound.wf.hasIdentifier_iff.mpr ⟨n, member, rfl⟩
  have found : e.mint.2.tree.nodeByIdentifier n.id = some n :=
    sound.wf.nodeByIdentifier_eq_some_iff.mpr ⟨member, rfl⟩
  cases kind with
  | delete =>
      have latest : laterDelete e.mint.1 n.deletedBy = e.mint.1 := by
        cases dot : n.deletedBy with
        | none => rfl
        | some d =>
            have known := sound.clock d (reachable.marked.known n member d dot)
            have older : d < e.mint.1 := Identifier.lt_iff.mpr (Or.inl (Nat.lt_succ_of_le known))
            exact if_pos (compareIds_pos_iff.mpr older)
      obtain ⟨tree, set, wf, -, list⟩ :=
        sound.wf.setDeleted_spec true (some e.mint.1) present
      refine ⟨{ e.mint.2 with tree }, ?_, turned_of_flag sound member wf list e.deleteContext ?_⟩
      · exact Sound.applyDelete_eq found (by rw [latest]; exact set)
      · exact if_pos rfl
  | undelete =>
      cases dot : n.deletedBy with
      | none =>
          refine ⟨e.mint.2, Sound.applyUndelete_eq_spared found fun d other => ?_,
            turned_of_spared sound member (by rw [dot]; rfl)⟩
          rw [dot] at other
          cases other
      | some d =>
          by_cases own : d.r = e.replicaId
          · obtain ⟨tree, set, wf, -, list⟩ := sound.wf.setDeleted_spec false none present
            refine ⟨_, Sound.applyUndelete_eq_own found dot own set,
              turned_of_flag sound member wf list _ ?_⟩
            rw [dot, Hold.of, Hold.of, if_pos own]
            rfl
          · refine ⟨e.mint.2, Sound.applyUndelete_eq_spared found fun d' other => ?_,
              turned_of_spared sound member (by rw [dot, Hold.of, if_neg own]; rfl)⟩
            obtain rfl := Option.some.inj (dot.symm.trans other)
            exact own

theorem press_eq (e : Engine) (m : UndoMove) :
    e.press m = (e.stepUndoRedo (m.popFrom e) (m.pushTo e)).map fun result =>
      (result.1, Built.restack result.2.1 result.2.2.1 result.2.2.2 m) := by
  cases m
  · simp only [press, undo, UndoMove.popFrom, UndoMove.pushTo]
    cases e.stepUndoRedo e.undoStack e.redoStack <;> rfl
  · simp only [press, redo, UndoMove.popFrom, UndoMove.pushTo]
    cases e.stepUndoRedo e.redoStack e.undoStack <;> rfl

theorem Reachable.press (reachable : e.Reachable) {m : UndoMove} {outcome : UndoOutcome}
    (pressed : e.press m = .ok (outcome, e')) : e'.Reachable := by
  cases m with
  | undo =>
      have edited : e.edit .undo = .ok (Built.operations outcome, e') := by
        rw [Engine.edit, show e.undo = _ from pressed]
        rfl
      exact reachable.edit edited
  | redo =>
      have edited : e.edit .redo = .ok (Built.operations outcome, e') := by
        rw [Engine.edit, show e.redo = _ from pressed]
        rfl
      exact reachable.edit edited

theorem Reachable.deleted_eq (reachable : e.Reachable) {n : Node} (member : n ∈ e.tree.nodes) :
    n.deleted = !Hold.shows e.hold n.id := by
  rw [reachable.marked.flags n member, Hold.shows, reachable.sound.hold_eq member]
  cases n.deletedBy with
  | none => rfl
  | some d =>
      rw [Hold.of]
      split_ifs <;> rfl

/-- The entry that is pushed is reversed by the answer. -/
theorem reversal_answer (id target : Identifier) (kind : InverseKind) (hold : Identifier → Hold) :
    reversal ⟨inverseOperation id target kind, (!Hold.shows hold target) !=
      !Hold.shows (Hold.crossed hold (target, kind)) target⟩ =
        .ok (Hold.answer kind (hold target), target) := by
  have after : Hold.crossed hold (target, kind) target = Hold.cross kind (hold target) :=
    Hold.crossed_self
  rw [Hold.shows, Hold.shows, after]
  cases kind <;> cases hold target <;> rfl

/-- The state after a step that reversed an entry about `target`. -/
structure Stepped (m : UndoMove) (e e' : Engine) (target : Identifier) (kind : InverseKind)
    (rest : List UndoStackEntry) : Prop where
  reachable : e'.Reachable
  turned : Turned e e' target kind
  popped : m.popFrom e' = rest
  pushed : ∃ entry, m.pushTo e' = entry :: m.pushTo e ∧ entry.op.target = target ∧
    reversal entry = .ok (Hold.answer kind (e.hold target), target)

theorem Reachable.step (reachable : e.Reachable) {m : UndoMove} {rest : List UndoStackEntry}
    (stack : m.popFrom e = entry :: rest)
    (present : e.tree.hasIdentifier entry.op.target = true)
    (chosen : reversal entry = .ok (kind, entry.op.target)) :
    ∃ op e', e.press m = .ok (.applied op, e') ∧ Stepped m e e' entry.op.target kind rest := by
  have sound := reachable.sound
  obtain ⟨before, member, named⟩ := sound.wf.hasIdentifier_iff.mp present
  rw [← named] at present chosen ⊢
  obtain ⟨e₁, applied, turned⟩ := reachable.turn member kind
  set inv := inverseOperation e.mint.1 before.id kind with hinv
  have foundBefore : e.mint.2.tree.nodeByIdentifier before.id = some before :=
    sound.wf.nodeByIdentifier_eq_some_iff.mpr ⟨member, rfl⟩
  have stays : e₁.tree.hasIdentifier before.id = true :=
    (hasIdentifier_of_skeleton sound.wf turned.wf turned.skeleton _).trans present
  obtain ⟨after, inside, here⟩ := turned.wf.hasIdentifier_iff.mp stays
  have foundAfter : (e₁.markApplied inv.id).tree.nodeByIdentifier before.id = some after :=
    turned.wf.nodeByIdentifier_eq_some_iff.mpr ⟨inside, here⟩
  have ended : e.press m = .ok (.applied inv, Built.restack (e₁.markApplied inv.id) rest
      (⟨inv, before.deleted != after.deleted⟩ :: m.pushTo e) m) := by
    rw [press_eq, stack]
    unfold stepUndoRedo
    simp only [← named, if_pos present, chosen, bind, Except.bind]
    rw [show e.mint = (e.mint.1, e.mint.2) from rfl]
    simp only [foundBefore, ← hinv, applied, foundAfter]
    rfl
  have next := reachable.press ended
  have pushed : reversal ⟨inv, before.deleted != after.deleted⟩ =
      .ok (Hold.answer kind (e.hold before.id), before.id) := by
    have flagAfter : after.deleted =
        !Hold.shows (Hold.crossed e.hold (before.id, kind)) before.id := by
      rw [← turned.hold, ← here]
      cases m <;> exact next.deleted_eq inside
    rw [reachable.deleted_eq member, flagAfter]
    exact reversal_answer ..
  refine ⟨inv, _, ended, next, ?_, Built.popFrom_restack .., _, Built.pushTo_restack ..,
    Built.inverseOperation_target .., pushed⟩
  cases m <;> exact ⟨turned.wf, turned.skeleton, turned.replicaId, turned.hold⟩

/-! ### Several steps -/

/-- The code points of the inserts that are shown. -/
def typeset (skeleton : List InsertOperation) (shown : Identifier → Bool) : List Nat :=
  (skeleton.filter fun ins => shown ins.id).map InsertOperation.value

theorem Reachable.characters_eq (reachable : e.Reachable) :
    e.characters = typeset (e.tree.nodes.map Node.toInsert) (Hold.shows e.hold) := by
  have shown : e.tree.nodes.filter (fun n => !n.deleted) =
      e.tree.nodes.filter fun n => Hold.shows e.hold n.id := by
    refine List.filter_congr fun n member => ?_
    rw [reachable.deleted_eq member, Bool.not_not]
  rw [characters, visible, nodes, reachable.sound.wf.toArray_eq, shown, typeset, List.filter_map,
    List.map_map]
  rfl

/-- The state after the entries `first` were crossed, the last of them at the bottom. -/
structure Followed (m : UndoMove) (e e' : Engine) (first : List UndoStackEntry)
    (seen : List (List Nat)) : Prop where
  reachable : e'.Reachable
  skeleton : e'.tree.nodes.map Node.toInsert = e.tree.nodes.map Node.toInsert
  hold : e'.hold = Hold.ending e.hold (moves first)
  popped : m.popFrom e = first ++ m.popFrom e'
  pushed : ∃ new, m.pushTo e' = new ++ m.pushTo e ∧ new.length = first.length ∧
    moves new = Hold.answers e.hold (moves first) [] ∧ ∀ entry ∈ new, Reversible e' entry
  seen : seen = (Hold.stops e.hold (moves first)).map fun stop =>
    typeset (e.tree.nodes.map Node.toInsert) (Hold.shows stop)

/-- Entries that can be reversed are crossed one after the other. -/
theorem Reachable.follow (reachable : e.Reachable) {m : UndoMove} {first rest : List UndoStackEntry}
    (stack : m.popFrom e = first ++ rest) (able : ∀ entry ∈ first, Reversible e entry) :
    ∃ seen e', pressed m first.length e = some (seen, e') ∧ Followed m e e' first seen := by
  induction first generalizing e with
  | nil => exact ⟨[], e, rfl, reachable, rfl, rfl, rfl, ⟨[], rfl, rfl, rfl, nofun⟩, rfl⟩
  | cons entry first ih =>
      obtain ⟨present, kind, chosen⟩ := able entry List.mem_cons_self
      obtain ⟨op, e₁, moved, stepped⟩ := reachable.step stack present chosen
      have ids := hasIdentifier_of_skeleton reachable.sound.wf stepped.reachable.sound.wf
        stepped.turned.skeleton
      obtain ⟨seen, e', ran, followed⟩ := ih stepped.reachable stepped.popped fun x member => by
        obtain ⟨there, chosen⟩ := able x (List.mem_cons_of_mem _ member)
        exact ⟨(ids _).trans there, chosen⟩
      have hold : e₁.hold = Hold.crossed e.hold (entry.op.target, kind) := stepped.turned.hold
      have skeleton := stepped.turned.skeleton
      obtain ⟨entry', pushed, about, answered⟩ := stepped.pushed
      obtain ⟨new, stack', length, answers, able'⟩ := followed.pushed
      refine ⟨e₁.characters :: seen, e', ?_, followed.reachable, followed.skeleton.trans skeleton,
        ?_, ?_, ⟨new ++ [entry'], ?_, ?_, ?_, fun x member => ?_⟩, ?_⟩
      · rw [List.length_cons, pressed, moved]
        simp only [ran, Option.map_some]
      · rw [followed.hold, hold, moves_cons chosen]
        rfl
      · rw [stack, List.cons_append, List.cons_append, ← followed.popped, stepped.popped]
        rfl
      · rw [stack', pushed, List.append_assoc, List.singleton_append]
      · rw [List.length_append, length, List.length_singleton, List.length_cons]
      · rw [moves_append, answers, moves_cons answered, moves_cons chosen, Hold.answers_cons, hold]
        rfl
      · rcases List.mem_append.mp member with inside | last
        · exact able' x inside
        · have later := hasIdentifier_of_skeleton reachable.sound.wf followed.reachable.sound.wf
            (followed.skeleton.trans skeleton) entry.op.target
          rw [List.mem_singleton.mp last, Reversible, about]
          exact ⟨later.trans present, _, answered⟩
      · rw [followed.seen, stepped.reachable.characters_eq, skeleton, hold, moves_cons chosen]
        rfl

/-- Steps that were all applied crossed entries that could be reversed. -/
theorem Reachable.crossed_of_pressed (reachable : e.Reachable) {m : UndoMove} {n : Nat}
    {seen : List (List Nat)} (ran : pressed m n e = some (seen, e')) :
    ∃ first rest, m.popFrom e = first ++ rest ∧ first.length = n ∧
      ∀ entry ∈ first, Reversible e entry := by
  induction n generalizing e e' seen with
  | zero => exact ⟨[], m.popFrom e, rfl, rfl, nofun⟩
  | succ n ih =>
      rw [pressed, press_eq] at ran
      obtain ⟨-, ended⟩ | ⟨entry, rest, stack, ⟨-, ended⟩ | ⟨message, -, -, ended⟩ |
        ⟨kind, chosen, present⟩⟩ := Built.stepUndoRedo_cases e (m.popFrom e) (m.pushTo e)
      · rw [ended] at ran
        cases ran
      · rw [ended] at ran
        cases ran
      · rw [ended] at ran
        cases ran
      · obtain ⟨op, e₁, moved, stepped⟩ := reachable.step stack present chosen
        rw [← press_eq, moved] at ran
        simp only [Option.map_eq_some_iff] at ran
        obtain ⟨⟨seen₁, e₂⟩, ran, same⟩ := ran
        obtain ⟨first, below, split, length, able⟩ := ih stepped.reachable ran
        have ids := hasIdentifier_of_skeleton reachable.sound.wf stepped.reachable.sound.wf
          stepped.turned.skeleton
        refine ⟨entry :: first, below, ?_, congrArg (· + 1) length,
          List.forall_mem_cons.mpr ⟨⟨present, kind, chosen⟩, fun x member => ?_⟩⟩
        · rw [stack, ← stepped.popped, split, List.cons_append]
        · exact ⟨(ids _).symm.trans (able x member).1, (able x member).2⟩

/-! ### The round trip -/

/-- If `n` undos are all applied, then `n` redos are, and walk back through what was shown on the way
down, and `n` further undos show the same again. -/
def RoundTrips (e : Engine) (n : Nat) : Prop :=
  ∀ seen down, pressed .undo n e = some (seen, down) →
    ∃ up again, pressed .redo n down = some ((e.characters :: seen).dropLast.reverse, up) ∧
      pressed .undo n up = some (seen, again)

/-- Another replica's deletion of the node meets an undelete first and a delete later among the top
`n` entries of the stack. -/
def Retaken (e : Engine) (n : Nat) (x : Node) : Prop :=
  (∃ d, x.deletedBy = some d ∧ d.r ≠ e.replicaId) ∧
    (reversals x.id (e.undoStack.take n)).head? = some .undelete ∧
    .delete ∈ reversals x.id (e.undoStack.take n)

instance (e : Engine) (n : Nat) (x : Node) : Decidable (e.Retaken n x) :=
  inferInstanceAs (Decidable ((∃ d ∈ x.deletedBy, d.r ≠ e.replicaId) ∧ _ ∧ _))

/-- The text is that of the code points. -/
theorem text_eq (e : Engine) :
    e.text = (e.characters.mapM fromCodePoint).map List.flatten := by
  rw [text, characters, List.mapM_map]
  rfl

/-- More inserts that show the same code points are the same inserts. -/
theorem typeset_faithful {skeleton : List InsertOperation} {ins : InsertOperation}
    (member : ins ∈ skeleton) {before after : Identifier → Bool}
    (larger : ∀ id, before id = true → after id = true)
    (same : typeset skeleton after = typeset skeleton before) : after ins.id = before ins.id := by
  have part : (skeleton.filter fun x => before x.id).Sublist (skeleton.filter fun x => after x.id) :=
    List.monotone_filter_right _ fun x shown => larger x.id shown
  have lengths := congrArg List.length same
  rw [typeset, typeset, List.length_map, List.length_map] at lengths
  have equal := part.eq_of_length lengths.symm
  rw [Bool.eq_iff_iff]
  refine ⟨fun shown => ?_, larger ins.id⟩
  have inside : ins ∈ skeleton.filter fun x => after x.id := List.mem_filter.mpr ⟨member, shown⟩
  rw [← equal] at inside
  exact (List.mem_filter.mp inside).2

theorem Reachable.retaken_iff (reachable : e.Reachable) (n : Nat) :
    (∀ target, ¬ Hold.Retaken e.hold (moves (e.undoStack.take n)) target) ↔
      ∀ x ∈ e.nodes, ¬ e.Retaken n x := by
  have sound := reachable.sound
  have foreign : ∀ {x : Node}, x ∈ e.tree.nodes →
      (e.hold x.id = .foreign ↔ ∃ d, x.deletedBy = some d ∧ d.r ≠ e.replicaId) := by
    intro x member
    rw [sound.hold_eq member]
    cases x.deletedBy with
    | none => simp [Hold.of]
    | some d => by_cases own : d.r = e.replicaId <;> simp [Hold.of, own]
  rw [nodes, sound.wf.toArray_eq]
  constructor
  · rintro unmixed x member ⟨other, first, later⟩
    refine unmixed x.id ⟨(foreign member).mpr other, ?_, ?_⟩
    · rwa [kinds_moves]
    · rwa [kinds_moves]
  · rintro unmixed target ⟨hold, first, later⟩
    rw [kinds_moves] at first later
    cases found : e.tree.nodeByIdentifier target with
    | none =>
        rw [Engine.hold, FugueTree.hold, found] at hold
        cases hold
    | some x =>
        obtain ⟨member, rfl⟩ := sound.wf.nodeByIdentifier_eq_some_iff.mp found
        exact unmixed x member ⟨(foreign member).mp hold, first, later⟩

/-- Undo and redo make a round trip exactly when no deletion of another replica is retaken on the
way. -/
theorem undo_redo_iff (reachable : e.Reachable) {n : Nat} (applied : pressed .undo n e ≠ none) :
    e.RoundTrips n ↔ ∀ x ∈ e.nodes, ¬ e.Retaken n x := by
  rw [← reachable.retaken_iff n]
  obtain ⟨⟨seen, down⟩, undone⟩ := Option.ne_none_iff_exists'.mp applied
  obtain ⟨first, rest, stack, length, able⟩ := reachable.crossed_of_pressed undone
  have top : e.undoStack.take n = first := by
    rw [show e.undoStack = _ from stack, ← length, List.take_left]
  rw [top]
  -- down, up again and down again, each as a script of reversals
  obtain ⟨seen₁, e₁, ran₁, followed₁⟩ := reachable.follow stack able
  rw [length, undone] at ran₁
  obtain ⟨rfl, rfl⟩ := Prod.mk.inj (Option.some.inj ran₁)
  obtain ⟨new₁, stack₁, length₁, answers₁, able₁⟩ := followed₁.pushed
  obtain ⟨seen₂, up, ran₂, followed₂⟩ := followed₁.reachable.follow (m := .redo) stack₁ able₁
  obtain ⟨new₂, stack₂, length₂, answers₂, able₂⟩ := followed₂.pushed
  obtain ⟨seen₃, again, ran₃, followed₃⟩ := followed₂.reachable.follow (m := .undo) stack₂ able₂
  rw [length₁, length] at ran₂
  rw [length₂, length₁, length] at ran₃
  set script := moves first with hscript
  set skeleton := e.tree.nodes.map Node.toInsert with hskeleton
  have wayDown : seen = (Hold.stops e.hold script).map fun stop =>
      typeset skeleton (Hold.shows stop) := followed₁.seen
  have start : (e.characters :: seen).dropLast.reverse =
      (Hold.retrace e.hold script).map fun stop => typeset skeleton (Hold.shows stop) := by
    rw [wayDown, reachable.characters_eq, Hold.retrace, List.map_reverse, List.map_dropLast,
      List.map_cons]
  have wayUp : seen₂ = (Hold.returns e.hold script).map fun stop =>
      typeset skeleton (Hold.shows stop) := by
    rw [followed₂.seen, followed₁.skeleton, answers₁, followed₁.hold, Hold.stops_answers]
  have faithful : ∀ target, ∀ before after : Identifier → Bool,
      (∀ x, before x = true → after x = true) → (∃ move ∈ script, move.1 = target) →
        typeset skeleton after = typeset skeleton before → after target = before target := by
    rintro target before after larger ⟨move, member, rfl⟩ same
    obtain ⟨entry, inside, chosen⟩ := List.mem_filterMap.mp member
    obtain ⟨present, kind, reverse⟩ := able entry inside
    rw [reverse] at chosen
    obtain rfl := Option.some.inj chosen
    obtain ⟨x, there, named⟩ := reachable.sound.wf.hasIdentifier_iff.mp present
    have known : x.toInsert ∈ skeleton := List.mem_map_of_mem there
    show after entry.op.target = before entry.op.target
    rw [← named]
    exact typeset_faithful known larger same
  rw [← Hold.retraces_iff (typeset skeleton) faithful, ← wayUp, ← start]
  constructor
  · intro trips
    obtain ⟨up', again', redone, -⟩ := trips seen down undone
    exact congrArg Prod.fst (Option.some.inj (ran₂.symm.trans redone))
  · intro same seen' down' undone'
    obtain ⟨rfl, rfl⟩ := Prod.mk.inj (Option.some.inj (undone.symm.trans undone'))
    have unmixed : ∀ target, ¬ Hold.Retaken e.hold script target := by
      rw [← Hold.retraces_iff (typeset skeleton) faithful, ← wayUp, ← start]
      exact same
    refine ⟨up, again, same ▸ ran₂, ?_⟩
    have onceMore : seen₃ = seen := by
      have restored : up.hold = Hold.restored e.hold script := by
        rw [followed₂.hold, answers₁, followed₁.hold, Hold.ending_answers]
      have back : moves new₂ = script := by
        rw [answers₂, answers₁, followed₁.hold, Hold.answers_answers unmixed]
      have shown := congrArg (List.map (typeset skeleton))
        (Hold.repeats unmixed (Hold.remains_restored unmixed))
      rw [List.map_map, List.map_map] at shown
      rw [followed₃.seen, followed₂.skeleton, followed₁.skeleton, back, restored, wayDown]
      exact shown
    rw [ran₃, onceMore]

/-- Replica 1 typed two characters, and replica 2 deleted the first of them. -/
def halfDeleted : List Call :=
  [.edit (.insert 0 97 false), .edit (.insert 1 98 false),
    .applyRemote (.delete ⟨⟨3, 2⟩, ⟨1, 1⟩⟩) none]

theorem undo_redo_halfDeleted : ∃ e, Run.run call (new 1) halfDeleted = .ok e ∧
    (pressed .undo 2 e).map Prod.fst = some [[], []] ∧ e.RoundTrips 2 := by
  obtain ⟨e, ran, checked⟩ := Run.exists_of_ends (Run.run call (new 1) halfDeleted)
    (fun e => decide ((pressed .undo 2 e).map Prod.fst = some [[], []]) &&
      decide (∀ x ∈ e.nodes, ¬ e.Retaken 2 x)) (by decide)
  rw [Bool.and_eq_true, decide_eq_true_iff, decide_eq_true_iff] at checked
  have applied : pressed .undo 2 e ≠ none := by
    intro none
    rw [none] at checked
    cases checked.1
  exact ⟨e, ran, checked.1, (undo_redo_iff ⟨1, _, ran⟩ applied).mpr checked.2⟩

/-- Replica 1 deleted its own character, and receives replica 2's deletion of it. -/
def bothDeleted : List Call :=
  [.edit (.insert 0 97 false), .edit (.delete 0 1), .applyRemote (.delete ⟨⟨2, 2⟩, ⟨1, 1⟩⟩) none]

/-- On the way down nothing is shown, and the second redo shows the character. -/
theorem redo_shows_lost : ¬ ∀ (e : Engine) (n : Nat), e.Reachable → e.RoundTrips n := by
  intro always
  obtain ⟨e, ran, checked⟩ := Run.exists_of_ends (Run.run call (new 1) bothDeleted)
    (fun e => decide (e.characters = [] ∧ ((pressed .undo 2 e).bind fun down =>
      (pressed .redo 2 down.2).map fun up => (down.1, up.1)) = some ([[], []], [[], [97]])))
    (by decide)
  obtain ⟨start, seen⟩ := of_decide_eq_true checked
  obtain ⟨⟨seen₁, down⟩, undone, seen⟩ := Option.bind_eq_some_iff.mp seen
  obtain ⟨⟨seen₂, up⟩, redone, same⟩ := Option.map_eq_some_iff.mp seen
  obtain ⟨rfl, rfl⟩ := Prod.mk.inj same
  obtain ⟨up', -, back, -⟩ := always e 2 ⟨1, _, ran⟩ [[], []] down undone
  rw [redone, start] at back
  have texts := congrArg Prod.fst (Option.some.inj back)
  cases texts

end Engine

end ConfluenceEditor
