/-
A client that edits offline and reconnects.

A synced client and the server show the same nodes. Offline, every local edit, undo and redo appends
what it minted to the unacknowledged queue. `OfflineClient.Preserves` says that the reconnect keeps
the text: on the client's rebuilt engine, and on the server after it received what the replay
minted. The replay skips undeletes, so an undo or redo that revives a node breaks this; while no
step does so, every state of the run preserves the text (`OfflineClient.reconnect_preserves`).
-/

import ConfluenceEditor.Client.Mirror
import ConfluenceEditor.Library.Run

namespace ConfluenceEditor

open Engine

structure OfflineClient where
  engine : Engine
  unacked : List Operation

inductive OfflineCommand where
  | localInsert (visibleIndex : Int) (value : Nat) (bind : Bool)
  | localDelete (visibleIndex : Int) (count : Nat)
  | undo
  | redo
  deriving DecidableEq, Repr

/-- Client and server hold the same nodes, and everything the server was sent is applied. -/
structure Synced (client server : Engine) (history serverHistory : List Operation) : Prop where
  builtClient : Built client history
  builtServer : Built server serverHistory
  nodes : client.nodes = server.nodes
  settled : server.pending = []
  apart : Network.SiblingsApart history
  rootRight : ∀ ins : InsertOperation, .insert ins ∈ history → ins.parent = none → ins.side = .R

/-- Two replicas of a network that show the same nodes are synced. -/
theorem Network.synced {n : Network} (reachable : n.Reachable) {i j : Nat}
    (nodes : (n.replicas i).nodes = (n.replicas j).nodes)
    (settled : (n.replicas j).pending = []) :
    ∃ history serverHistory, Synced (n.replicas i) (n.replicas j) history serverHistory ∧
      ∀ op ∈ history ++ serverHistory, op ∈ n.issued := by
  have invariant := Network.invariant_of_reachable reachable
  obtain ⟨history, client⟩ := invariant.replica i
  obtain ⟨serverHistory, server⟩ := invariant.replica j
  have issued : ∀ op ∈ history, op ∈ n.issued := fun op member =>
    client.flown op ((client.known op).mpr (Or.inl member))
  refine ⟨history, serverHistory, ⟨client.built, server.built, nodes, settled,
    fun a b inA inB => invariant.apart a b (issued _ inA) (issued _ inB),
    fun ins member => invariant.rootRight ins (issued _ member)⟩, fun op member => ?_⟩
  rcases List.mem_append.mp member with own | other
  · exact issued op own
  · exact server.flown op ((server.known op).mpr (Or.inl other))

namespace OfflineClient

/-- A synced client has nothing unacknowledged. -/
def start (e : Engine) : OfflineClient := ⟨e, []⟩

def step (o : OfflineClient) : OfflineCommand → Except String OfflineClient
  | .localInsert visibleIndex value bind => do
      let (op, engine) ← o.engine.localInsert visibleIndex value bind
      .ok ⟨engine, o.unacked ++ [.insert op]⟩
  | .localDelete visibleIndex count => do
      let (ops, engine) ← o.engine.localDelete visibleIndex count
      .ok ⟨engine, o.unacked ++ ops.map .delete⟩
  | .undo => do
      let (outcome, engine) ← o.engine.undo
      .ok ⟨engine, o.unacked ++ Built.operations outcome⟩
  | .redo => do
      let (outcome, engine) ← o.engine.redo
      .ok ⟨engine, o.unacked ++ Built.operations outcome⟩

/-- Reconnecting under a new replica id keeps the text, and what the replay minted brings the
server to the same text. -/
def Preserves (server : Engine) (replicaId : Nat) (o : OfflineClient) : Prop :=
  ∃ s server', reconnect replicaId o.engine o.unacked = .ok s ∧
    server.applyAll s.resent = .ok server' ∧ s.engine.text = o.engine.text ∧
    server'.text = o.engine.text

/-- The reversal of the top entry is an undelete of a node whose deletion is attributed to the
client's own replica. -/
def revives (e : Engine) : List UndoStackEntry → Bool
  | [] => false
  | entry :: _ =>
      match reversal entry, e.tree.nodeByIdentifier entry.op.target with
      | .ok (.undelete, _), some node =>
          node.deletedBy.any fun deletedBy => decide (deletedBy.r = e.replicaId)
      | _, _ => false

/-- The step is not an undo or redo that revives a node. -/
def NoRevival (o : OfflineClient) : OfflineCommand → Prop
  | .undo => revives o.engine o.engine.undoStack = false
  | .redo => revives o.engine o.engine.redoStack = false
  | _ => True

instance (o : OfflineClient) (c : OfflineCommand) : Decidable (o.NoRevival c) := by
  cases c <;> unfold NoRevival <;> infer_instance

/-! ### The invariant of the offline run -/

/-- The queue holds exactly the edits made since the client was synced. -/
structure Edited (client : Engine) (history : List Operation) (o : OfflineClient) : Prop where
  built : Built o.engine (history ++ o.unacked)
  replicaId : o.engine.replicaId = client.replicaId
  edits : OfflineEdits history (client.tree.nodes.map Node.toInsert) o.unacked
    (o.engine.tree.nodes.map Node.toInsert)
  above : ∀ op ∈ o.unacked, ∀ old ∈ history, old.id.c < op.id.c
  rootRight : ∀ ins : InsertOperation, .insert ins ∈ history ++ o.unacked → ins.parent = none →
    ins.side = .R

variable {client server : Engine} {history serverHistory : List Operation} {o o' : OfflineClient}

theorem edited_start (synced : Synced client server history serverHistory) :
    Edited client history (start client) where
  built := by
    rw [start, List.append_nil]
    exact synced.builtClient
  replicaId := rfl
  edits := .nil
  above := nofun
  rootRight := by
    rw [start, List.append_nil]
    exact synced.rootRight

namespace Edited

/-- What every minted list of operations keeps. -/
theorem extend (edited : Edited client history o) {e : Engine} {ops : List Operation}
    (minted : Minted o.engine e (history ++ o.unacked) ops)
    (edits : OfflineEdits history (client.tree.nodes.map Node.toInsert) (o.unacked ++ ops)
      (e.tree.nodes.map Node.toInsert))
    (rootRight : ∀ ins : InsertOperation, .insert ins ∈ ops → ins.parent = none → ins.side = .R) :
    Edited client history ⟨e, o.unacked ++ ops⟩ where
  built := by
    rw [← List.append_assoc]
    exact minted.built
  replicaId := minted.replicaId.trans edited.replicaId
  edits := edits
  above op member old known := by
    rcases List.mem_append.mp member with earlier | new
    · exact edited.above op earlier old known
    · exact lt_of_le_of_lt (edited.built.clock old (List.mem_append_left _ known))
        (minted.fresh op new).2
  rootRight ins member orphan := by
    rw [← List.append_assoc] at member
    rcases List.mem_append.mp member with earlier | new
    · exact edited.rootRight ins earlier orphan
    · exact rootRight ins new orphan

/-- A minted identifier is not the identifier of an insert of the document. -/
theorem fresh (edited : Edited client history o) {id : Identifier}
    (above : o.engine.clock < id.c) : ∀ a ∈ o.engine.tree.nodes.map Node.toInsert, a.id ≠ id := by
  rintro a member rfl
  have known := edited.built.clock _ ((edited.built.inserts a).mp member)
  rw [Operation.id_insert] at known
  omega

/-- A local insert stands next to its parent, after a visible node or at the start. -/
theorem beside (edited : Edited client history o) {op : InsertOperation} {before after : List Node}
    {k : Nat} (position : o.engine.tree.Position op.parent op.side before after)
    (origin : o.engine.tree.EndsAtOrigin before k) :
    Beside (fun id => dotOf (history ++ o.unacked) id = none) op (before.map Node.toInsert)
      (after.map Node.toInsert) := by
  have rootRight : ∀ n ∈ o.engine.tree.nodes, n.parent = none → n.side = .R := fun n member =>
    edited.rootRight _ (edited.built.mem_history_of_node member)
  have shown : ∀ n ∈ o.engine.tree.visible, dotOf (history ++ o.unacked) n.id = none := by
    intro n visible
    obtain ⟨member, flag⟩ := List.mem_filter.mp visible
    rw [edited.built.deleted n member, edited.built.deletedBy n member] at flag
    simpa using flag
  have start : before = [] ∨ ∃ first n, before = first ++ [n] ∧ n ∈ o.engine.tree.visible := by
    cases k with
    | zero =>
        have origin : before = o.engine.tree.leftChildren.inorder.map TreeNode.toPublicNode := origin
        rw [edited.built.wf.leftChildren_eq_nil rootRight] at origin
        exact Or.inl origin
    | succ i =>
        obtain ⟨first, n, same, at?⟩ := origin
        exact Or.inr ⟨first, n, same, List.mem_of_getElem? at?⟩
  have adjacent := position.adjacent
  unfold FugueTree.Adjacent at adjacent
  unfold Beside
  cases parent : op.parent with
  | none =>
      have empty : o.engine.tree.nodes = [] := by
        by_contra inhabited
        obtain ⟨m, member, orphan, onSide⟩ := edited.built.wf.exists_root rootRight inhabited
        exact position.free m member
          ⟨orphan.trans parent.symm, onSide.trans (position.rootRight parent).symm⟩
      rw [position.split, List.append_eq_nil_iff] at empty
      exact ⟨by rw [empty.1]; rfl, by rw [empty.2]; rfl⟩
  | some p =>
      rw [parent] at adjacent
      cases side : op.side with
      | R =>
          rw [side] at adjacent
          obtain ⟨first, n, rfl, rfl⟩ := adjacent
          refine ⟨first.map Node.toInsert, n.toInsert, by simp, rfl, ?_⟩
          rcases start with empty | ⟨first', n', same, visible⟩
          · simp at empty
          · obtain ⟨-, last⟩ := List.append_inj' same rfl
            rw [List.singleton_inj.mp last]
            exact shown n' visible
      | L =>
          rw [side] at adjacent
          obtain ⟨n, last, rfl, rfl⟩ := adjacent
          refine ⟨⟨n.toInsert, last.map Node.toInsert, rfl, rfl⟩, ?_⟩
          rcases start with rfl | ⟨first, m, rfl, visible⟩
          · exact Or.inl rfl
          · exact Or.inr ⟨first.map Node.toInsert, m.toInsert, by simp, shown m visible⟩

theorem localInsert (edited : Edited client history o) {visibleIndex : Int} {value : Nat}
    {bind : Bool} (moved : o.step (.localInsert visibleIndex value bind) = .ok o') :
    Edited client history o' := by
  by_cases inside : 0 ≤ visibleIndex ∧ visibleIndex ≤ (o.engine.tree.visible.length : Int)
  · obtain ⟨k, rfl⟩ := Int.eq_ofNat_of_zero_le inside.1
    obtain ⟨op, e, before, after, inserted, minted, -, -, position, list, origin, -⟩ :=
      edited.built.localInsert_spec k (by omega) value bind
    simp only [step, inserted, Bind.bind, Except.bind] at moved
    obtain rfl := Except.ok.inj moved
    have above : o.engine.clock < op.id.c := (minted.fresh (.insert op) (by simp)).2
    have fresh := edited.fresh above
    have edits := edited.edits
    rw [position.split, List.map_append] at edits fresh
    refine edited.extend minted ?_ fun ins member orphan => ?_
    · rw [list, List.map_append, List.map_cons, InsertOperation.toInsert_toNode]
      exact edits.insert fresh
        (edited.built.dotOf_fresh (edited.built.fresh_node (edited.built.fresh_of_clock above)))
        (edited.beside position origin)
    · obtain rfl := Operation.insert.inj (List.mem_singleton.mp member)
      exact position.rootRight orphan
  · obtain ⟨message, thrown⟩ := edited.built.localInsert_error visibleIndex (by omega) value bind
    simp only [step, thrown] at moved
    cases moved

theorem localDelete (edited : Edited client history o) {visibleIndex : Int} {count : Nat}
    (moved : o.step (.localDelete visibleIndex count) = .ok o') : Edited client history o' := by
  obtain ⟨ops, e, removed, minted, -⟩ := edited.built.localDelete_spec visibleIndex count
  simp only [step, removed, Bind.bind, Except.bind] at moved
  obtain rfl := Except.ok.inj moved
  have skeleton := minted.skeleton fun op member ins => by
    rintro rfl
    simp at member
  refine edited.extend minted ?_ (by simp)
  rw [skeleton]
  -- one delete after the other, on an unchanged document
  have targets : ∀ del ∈ ops, ∃ a ∈ o.engine.tree.nodes.map Node.toInsert, a.id = del.target := by
    intro del member
    obtain ⟨ins, inserted, same⟩ := minted.built.causal.met
      (List.mem_append_right _ (List.mem_map_of_mem member)) del.target rfl
    refine ⟨ins, ?_, same⟩
    rw [← skeleton]
    exact (minted.built.inserts ins).mpr inserted
  have newIds : ∀ del ∈ ops, ∀ a ∈ o.engine.tree.nodes.map Node.toInsert, a.id ≠ del.id :=
    fun del member => edited.fresh (minted.fresh _ (List.mem_map_of_mem member)).2
  clear minted removed skeleton moved
  induction ops using List.reverseRecOn with
  | nil =>
      rw [List.map_nil, List.append_nil]
      exact edited.edits
  | append_singleton ops del ih =>
      rw [List.map_append, List.map_singleton, ← List.append_assoc]
      refine OfflineEdits.delete (ih ?_ ?_) (newIds del (by simp)) (targets del (by simp))
      · exact fun x member => targets x (List.mem_append_left _ member)
      · exact fun x member => newIds x (List.mem_append_left _ member)

/-- What a minted undelete says about the entry it reverses. -/
theorem undelete_of_step {e e' : Engine} {history : List Operation} (built : Built e history)
    {popFrom pushTo popFrom' pushTo' : List UndoStackEntry} {und : UndeleteOperation}
    (stepped : e.stepUndoRedo popFrom pushTo = .ok (.applied (.undelete und), e', popFrom', pushTo')) :
    ∃ entry rest n, popFrom = entry :: rest ∧ entry.op.target = und.target ∧
      reversal entry = .ok (.undelete, und.target) ∧ und.id.r = e.replicaId ∧
      e.tree.nodeByIdentifier und.target = some n := by
  generalize minted : UndoOutcome.applied (.undelete und) = outcome at stepped
  cases Built.reversed_of_step stepped with
  | idle quiet =>
      rw [← minted] at quiet
      cases quiet
  | applied effect stack present chosen applied =>
      rename_i entry kind e₁
      obtain ⟨n, found⟩ := built.exists_target present
      cases kind with
      | delete => cases minted
      | undelete =>
          obtain rfl := Operation.undelete.inj (UndoOutcome.applied.inj minted)
          exact ⟨entry, popFrom', n, stack, rfl, chosen, rfl, found⟩

/-- An undo or redo step that revives nothing. -/
theorem stepUndoRedo (edited : Edited client history o) {popFrom pushTo popFrom' pushTo' :
    List UndoStackEntry} {outcome : UndoOutcome} {e : Engine}
    (stepped : o.engine.stepUndoRedo popFrom pushTo = .ok (outcome, e, popFrom', pushTo'))
    (quiet : revives o.engine popFrom = false) (undoStack redoStack : List UndoStackEntry) :
    Edited client history
      ⟨{ e with undoStack, redoStack }, o.unacked ++ Built.operations outcome⟩ := by
  obtain ⟨minted, noInsert⟩ := edited.built.stepUndoRedo_spec stepped
  have minted := minted undoStack redoStack
  have skeleton := minted.skeleton noInsert
  refine edited.extend minted ?_ fun ins member => absurd rfl (noInsert _ member ins)
  rw [skeleton]
  cases outcome with
  | empty =>
      rw [show Built.operations .empty = [] from rfl, List.append_nil]
      exact edited.edits
  | unavailable =>
      rw [show Built.operations .unavailable = [] from rfl, List.append_nil]
      exact edited.edits
  | applied op =>
      have own := minted.fresh op (by simp [Built.operations])
      cases op with
      | insert ins => exact absurd rfl (noInsert (.insert ins) (by simp [Built.operations]) ins)
      | delete del =>
          refine OfflineEdits.delete edited.edits (edited.fresh own.2) ?_
          obtain ⟨ins, inserted, same⟩ := @Causal.met _ minted.built.causal (.delete del)
            (List.mem_append_right _ (by simp [Built.operations])) del.target rfl
          refine ⟨ins, ?_, same⟩
          rw [← skeleton]
          exact (minted.built.inserts ins).mpr inserted
      | undelete und =>
          refine OfflineEdits.undelete edited.edits ?_
          obtain ⟨entry, rest, n, rfl, target, chosen, replica, found⟩ :=
            undelete_of_step edited.built stepped
          obtain ⟨member, named⟩ := edited.built.wf.nodeByIdentifier_eq_some_iff.mp found
          have dot := edited.built.deletedBy n member
          rw [named] at dot
          simp only [revives, chosen, target, found] at quiet
          rw [stepDot, if_pos rfl, ← dot]
          -- the node is visible, or another replica holds the attribution
          cases deletedBy : n.deletedBy with
          | none => rfl
          | some d =>
              rw [deletedBy, Option.any_some, decide_eq_false_iff_not] at quiet
              rw [afterUndelete, if_neg fun same => quiet (same.trans replica)]

/-- Every step that revives nothing keeps the invariant. -/
theorem step (edited : Edited client history o) {command : OfflineCommand}
    (quiet : o.NoRevival command) (moved : o.step command = .ok o') :
    Edited client history o' := by
  cases command with
  | localInsert visibleIndex value bind => exact edited.localInsert moved
  | localDelete visibleIndex count => exact edited.localDelete moved
  | undo =>
      simp only [OfflineClient.step, Engine.undo] at moved
      cases stepped : o.engine.stepUndoRedo o.engine.undoStack o.engine.redoStack with
      | error message =>
          rw [stepped] at moved
          cases moved
      | ok result =>
          obtain ⟨outcome, e, popped, pushed⟩ := result
          rw [stepped] at moved
          obtain rfl := Except.ok.inj moved
          exact edited.stepUndoRedo stepped quiet popped pushed
  | redo =>
      simp only [OfflineClient.step, Engine.redo] at moved
      cases stepped : o.engine.stepUndoRedo o.engine.redoStack o.engine.undoStack with
      | error message =>
          rw [stepped] at moved
          cases moved
      | ok result =>
          obtain ⟨outcome, e, popped, pushed⟩ := result
          rw [stepped] at moved
          obtain rfl := Except.ok.inj moved
          exact edited.stepUndoRedo stepped quiet pushed popped

end Edited

/-! ### The reconnect -/

/-- The text depends on the characters and their flags. -/
theorem text_eq {e e' : Engine} (same : (e.nodes.map fun n => (n.value, n.deleted)) =
    e'.nodes.map fun n => (n.value, n.deleted)) : e.text = e'.text := by
  have values : ∀ e : Engine, e.visible.map Node.value =
      ((e.nodes.map fun n => (n.value, n.deleted)).filter fun unit => !unit.2).map Prod.fst := by
    intro e
    rw [List.filter_map, List.map_map]
    rfl
  have text : ∀ e : Engine, e.text = ((e.visible.map Node.value).mapM fromCodePoint).map
      List.flatten := fun e => by rw [Engine.text, List.mapM_map]; rfl
  rw [text, text, values, values, same]

/-- The characters and flags of an engine in terms of its history. -/
theorem units_eq {e : Engine} {history : List Operation} (built : Built e history) :
    (e.nodes.map fun n => (n.value, n.deleted)) = (e.tree.nodes.map Node.toInsert).map fun a =>
      (a.value, (dotOf history a.id).isSome) := by
  rw [built.nodes_eq, List.map_map]
  refine List.map_congr_left fun n member => ?_
  rw [built.deleted n member, built.deletedBy n member]
  rfl

/-- The server shows every node as the synced client does. -/
theorem shown_iff (synced : Synced client server history serverHistory) (target : Identifier) :
    dotOf serverHistory target = none ↔ dotOf history target = none := by
  have nodes := synced.nodes
  rw [synced.builtClient.nodes_eq, synced.builtServer.nodes_eq] at nodes
  by_cases known : client.tree.hasIdentifier target = true
  · obtain ⟨n, member, rfl⟩ := synced.builtClient.wf.hasIdentifier_iff.mp known
    have dot := synced.builtClient.deletedBy n member
    rw [nodes] at member
    rw [← dot, synced.builtServer.deletedBy n member]
  · have unknown : ¬ server.tree.hasIdentifier target = true := by
      rwa [synced.builtServer.wf.hasIdentifier_iff, ← nodes,
        ← synced.builtClient.wf.hasIdentifier_iff]
    rw [Bool.not_eq_true] at known unknown
    rw [synced.builtClient.dotOf_fresh known, synced.builtServer.dotOf_fresh unknown]

theorem insert_mem_iff (synced : Synced client server history serverHistory)
    (ins : InsertOperation) : .insert ins ∈ serverHistory ↔ .insert ins ∈ history := by
  have nodes := synced.nodes
  rw [synced.builtClient.nodes_eq, synced.builtServer.nodes_eq] at nodes
  rw [← synced.builtServer.inserts, ← nodes, synced.builtClient.inserts]

variable {replicaId : Nat}

/-- The mirror shows the text that the client had. -/
theorem mirror_text {base : List Operation} {s : Reconciliation} (edited : Edited client history o)
    (clean : CleanBase history o.unacked base)
    (mirrors : Mirrors base o.unacked (o.engine.tree.nodes.map Node.toInsert)
      (Gone base o.unacked) replicaId s) : s.engine.text = o.engine.text := by
  refine text_eq ?_
  have pairs := congrArg (List.map fun unit : Identifier × Nat =>
    (unit.2, (dotOf (base ++ s.resent) unit.1).isSome)) mirrors.nodes
  rw [List.map_map, List.map_map] at pairs
  rw [units_eq mirrors.built, List.map_map, units_eq edited.built]
  refine pairs.trans (List.map_congr_left fun a member => ?_)
  have shown := mirrors.shown a member
  rw [Gone, ne_eq, clean.shown] at shown
  have offline := edited.edits.dotOf_eq_none_iff a.id
  have same : dotOf (base ++ s.resent) (s.resolve a.id) = none ↔
      dotOf (history ++ o.unacked) a.id = none := by
    rw [shown, offline]
    tauto
  refine Prod.ext rfl ?_
  change (dotOf (base ++ s.resent) (s.resolve a.id)).isSome = _
  rw [Bool.eq_iff_iff, Option.isSome_iff_ne_none, Option.isSome_iff_ne_none, ne_eq, ne_eq, same]

/-- A synced node that the queue deletes is deleted in the mirror by a resent delete. -/
theorem mirror_deleted {base : List Operation} {s : Reconciliation}
    (synced : Synced client server history serverHistory) (edited : Edited client history o)
    (mirrors : Mirrors base o.unacked (o.engine.tree.nodes.map Node.toInsert)
      (Gone base o.unacked) replicaId s) {target : Identifier}
    (old : dotOf history target ≠ none) (targeted : Targeted o.unacked target) :
    dotOf (base ++ s.resent) target ≠ none := by
  obtain ⟨d, dot⟩ := Option.ne_none_iff_exists'.mp old
  obtain ⟨ins, inserted, rfl⟩ := synced.builtClient.causal.met (deletes_of_dotOf dot) target rfl
  have inDoc := (edited.built.inserts ins).mpr (List.mem_append_left _ inserted)
  have unmoved : s.resolve ins.id = ins.id := by
    cases renamed : s.remap ins.id with
    | none => simp [Reconciliation.resolve, renamed]
    | some id =>
        obtain ⟨op, member, same⟩ := mirrors.keys ins.id (by simp [renamed])
        exact absurd (List.mem_map.mpr ⟨op, member, same⟩)
          (id_not_mem_queue edited.above inserted)
  rw [← unmoved, ne_eq, mirrors.shown ins inDoc, not_not]
  exact Or.inr targeted

/-- An offline run that revived nothing is reproduced by the reconnect. -/
theorem Edited.preserves (synced : Synced client server history serverHistory)
    (unused : ∀ op ∈ history ++ serverHistory, op.id.r ≠ replicaId)
    (edited : Edited client history o) : Preserves server replicaId o := by
  obtain ⟨fresh, base, seeded, builtFresh, rfl, clean, skeleton⟩ :=
    seed_spec synced.builtClient edited.built edited.edits edited.above synced.apart replicaId
  obtain ⟨s, replayed, mirrors⟩ := edited.edits.mirrors builtFresh skeleton
    (fun a b inA inB => synced.apart a b (clean.subset _ inA) (clean.subset _ inB))
    (fun ins member => synced.rootRight ins (clean.subset _ member))
    (fun id visible => (clean.shown id).mpr (Or.inl visible))
  -- the server has none of the resent operations and all that they depend on
  have foreign : ∀ op ∈ s.resent, op ∉ serverHistory := fun op member known =>
    unused op (List.mem_append_right _ known) (mirrors.own op member)
  have nodupResent : (s.resent.map Operation.id).Nodup := by
    have nodup := mirrors.built.nodup
    rw [List.map_append, List.nodup_append] at nodup
    exact nodup.2.1
  have nodup : ((serverHistory ++ s.resent).map Operation.id).Nodup := by
    rw [List.map_append, List.nodup_append]
    refine ⟨synced.builtServer.nodup, nodupResent, ?_⟩
    rintro id old id' new rfl
    obtain ⟨op, known, same⟩ := List.mem_map.mp old
    obtain ⟨op', member, same'⟩ := List.mem_map.mp new
    refine unused op (List.mem_append_right _ known) ?_
    rw [same, ← same']
    exact mirrors.own op' member
  have causal : Causal (serverHistory ++ s.resent) :=
    mirrors.built.causal.extend synced.builtServer.causal fun ins member => by
      rw [insert_mem_iff synced, ← clean.inserts]
      exact member
  obtain ⟨server', applied, builtServer', -, -⟩ := synced.builtServer.applyAll_causal
    synced.settled (.of_nodup nodup) nodupResent.of_map causal
  rw [List.filter_eq_self.mpr fun op member => decide_eq_true (foreign op member)] at builtServer'
  refine ⟨s, server', by simp only [reconnect, seeded, Bind.bind, Except.bind, replayed], applied,
    mirror_text edited clean mirrors, Eq.trans ?_ (mirror_text edited clean mirrors)⟩
  -- the same inserts, and the same of them deleted
  refine text_eq ?_
  have sameSkeleton : server'.tree.nodes.map Node.toInsert =
      s.engine.tree.nodes.map Node.toInsert := by
    refine (FugueTree.skeleton_eq mirrors.built.wf builtServer'.wf (fun a ha b hb => ?_)
      fun ins => ?_).symm
    · exact mirrors.apart a b ((mirrors.built.inserts a).mp ha) ((mirrors.built.inserts b).mp hb)
    · rw [mirrors.built.inserts, builtServer'.inserts, List.mem_append, List.mem_append,
        insert_mem_iff synced, clean.inserts]
  rw [units_eq builtServer', units_eq mirrors.built, sameSkeleton]
  refine List.map_congr_left fun a member => ?_
  have same : dotOf (serverHistory ++ s.resent) a.id = none ↔
      dotOf (base ++ s.resent) a.id = none := by
    have hidden : dotOf history a.id ≠ none → Targeted o.unacked a.id →
        dotOf (base ++ s.resent) a.id ≠ none := mirror_deleted synced edited mirrors
    rw [ne_eq, ne_eq, dotOf_append_eq_none_iff mirrors.kept, clean.shown] at hidden
    rw [dotOf_append_eq_none_iff mirrors.kept, dotOf_append_eq_none_iff mirrors.kept,
      shown_iff synced, clean.shown]
    tauto
  refine Prod.ext rfl ?_
  change (dotOf (serverHistory ++ s.resent) a.id).isSome = (dotOf (base ++ s.resent) a.id).isSome
  rw [Bool.eq_iff_iff, Option.isSome_iff_ne_none, Option.isSome_iff_ne_none, ne_eq, ne_eq, same]

/-- Replica 1 types one character, which the server (replica 0) receives. -/
def typedAndSynced : List Command :=
  [.localInsert 1 0 97 false, .deliver 0 (.insert ⟨⟨1, 1⟩, 97, none, .R, false⟩)]

/-- Replica 1 and the server show the same nodes, and replica id 2 was never used. -/
def agree (n : Network) : Bool :=
  decide ((n.replicas 1).nodes = (n.replicas 0).nodes) && (n.replicas 0).pending.isEmpty &&
    decide (∀ op ∈ n.issued, op.id.r ≠ 2)

theorem synced_of_agree {n : Network} (reachable : n.Reachable) (checked : agree n = true) :
    ∃ history serverHistory, Synced (n.replicas 1) (n.replicas 0) history serverHistory ∧
      ∀ op ∈ history ++ serverHistory, op.id.r ≠ 2 := by
  simp only [agree, Bool.and_eq_true, decide_eq_true_iff, List.isEmpty_iff] at checked
  obtain ⟨⟨nodes, settled⟩, unused⟩ := checked
  obtain ⟨history, serverHistory, synced, issued⟩ := Network.synced reachable nodes settled
  exact ⟨history, serverHistory, synced, fun op member => unused op (issued op member)⟩

/-- Two characters typed around the synced one, one of them taken back, the synced one deleted. -/
def editedOffline : List OfflineCommand :=
  [.localInsert 1 98 false, .localInsert 0 99 false, .undo, .localDelete 0 1]

end OfflineClient

end ConfluenceEditor
