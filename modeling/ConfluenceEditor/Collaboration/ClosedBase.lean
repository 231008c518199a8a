/-
The base that a client rebuilds its engine from when it reconnects.

`buildCleanCatchupBase` omits the nodes that the client still counts as unacknowledged. The server
broadcasts an operation before it acknowledges it, so operations that name such a node may arrive,
and then the base keeps a node without its parent. `base_closed` says that this is the way to break
the base: while nothing that arrives names a queued operation, and no operation leaves the queue
before the one it hangs on, the base is closed under parents, replaying it leaves nothing waiting,
and the rebuilt engine shows every operation that the client was told and that showed before.
-/

import ConfluenceEditor.Client.CleanBase
import ConfluenceEditor.Client.Handshake
import ConfluenceEditor.Client.Resident
import ConfluenceEditor.Replication.Seeding
import ConfluenceEditor.Server.LogRows

namespace ConfluenceEditor

open Engine

/-- What arrives at a client, and what its user does. -/
inductive ClientEvent where
  | connect (nowMs : Nat)
  | reopen
  | opened
  | closing
  | closed (nowMs : Nat)
  | disconnect (nowMs : Nat)
  | edit (call : EditCall) (nowMs : Nat)
  | discardRejected
  | control (msg : ControlMessage)
  | ops (msg : OpsFrameMessage)
  | gate (nowMs : Nat)
  deriving DecidableEq, Repr

/-- A client and the numbered operations that it was told: what its last image stands for, what came
in frames and chunks since, and its own operations once they were acknowledged. -/
structure Informed where
  client : ConnectedClient
  heard : List (Nat × Operation)

/-- The numbers that a chunk gives to its operations. -/
def chunkNumbers (throughSeq : Nat) : List Operation → List (Nat × Operation)
  | [] => []
  | op :: ops => (throughSeq - ops.length, op) :: chunkNumbers throughSeq ops

theorem map_snd_chunkNumbers (throughSeq : Nat) (ops : List Operation) :
    (chunkNumbers throughSeq ops).map Prod.snd = ops := by
  induction ops with
  | nil => rfl
  | cons op ops ih => rw [chunkNumbers, List.map_cons, ih]

/-- The operation shows in the document: its node is there, its delete holds the tombstone, or its
undelete did away with the deletes of its replica. -/
def Appears (e : Engine) : Operation → Prop
  | .insert ins => ∃ n ∈ e.tree.nodes, n.toInsert = ins
  | .delete del => ∃ n ∈ e.tree.nodes, n.id = del.target ∧ n.deletedBy = some del.id
  | .undelete und => ∃ n ∈ e.tree.nodes, n.id = und.target ∧
      ∀ d, n.deletedBy = some d → d.r ≠ und.id.r

namespace Informed

def init : Informed := ⟨.new, []⟩

/-- What the client was told after an event. -/
def hears (s : Informed) : ClientEvent → List (Nat × Operation)
  | .control (.snapshot seq nodes) =>
      if s.client.replicaId.isSome then (snapshotOps nodes).map fun op => (seq, op) else s.heard
  | .ops (.ops seq ops) => s.heard ++ numberedFrom seq ops
  | .ops (.opAck acks) => s.heard ++ acks.filterMap fun ack =>
      (UnackedQueue.get s.client.unacked ack.1).map fun op => (ack.2, op)
  | .gate _ =>
      match s.client.handshakeGate with
      | (generation, .catchupChunk throughSeq ops) :: _ =>
          if generation = s.client.handshakeGeneration then s.heard ++ chunkNumbers throughSeq ops
          else s.heard
      | _ => s.heard
  | _ => s.heard

/-- The client's own part of an event. -/
def react (isClusterContinuing : Nat → Bool) (c : ConnectedClient) :
    ClientEvent → Except String ConnectedClient
  | .connect nowMs => .ok (c.connect nowMs)
  | .reopen => .ok c.openSocketNow
  | .opened => .ok c.onOpen.1
  | .closing => .ok { c with ws := some .CLOSING }
  | .closed nowMs => .ok (c.onClose nowMs)
  | .disconnect nowMs => .ok (c.disconnect nowMs)
  | .edit call nowMs => .ok (c.perform isClusterContinuing nowMs call)
  | .discardRejected => .ok c.discardRejected
  | .control msg => c.handleControl msg
  | .ops msg => c.handleOpsMessage msg
  | .gate nowMs => c.runGate nowMs

def step (isClusterContinuing : Nat → Bool) (s : Informed) (event : ClientEvent) :
    Except String Informed := do
  let client ← react isClusterContinuing s.client event
  .ok ⟨client, s.hears event⟩

/-- The base is closed under parents, replaying it into a fresh engine leaves nothing waiting, and
what the client claims to have applied still shows in the rebuilt engine. -/
structure BaseClosed (s : Informed) : Prop where
  closed : ∀ n ∈ s.client.cleanBase, ∀ p, n.parent = some p → ∃ m ∈ s.client.cleanBase, m.id = p
  rebuilt : ∀ replicaId, ∃ e', seedEngineFromSnapshot replicaId s.client.cleanBase = .ok e' ∧
    e'.pending = [] ∧ ∀ e, s.client.engine = some e →
      ∀ row ∈ s.heard, row.1 ≤ s.client.highestAppliedSeq → Appears e row.2 → Appears e' row.2

end Informed

/-! ### The condition on a step -/

namespace ConnectedClient

/-- The engine is not going to mint this identifier. -/
def Minted (c : ConnectedClient) (id : Identifier) : Prop :=
  match c.engine with
  | some e => id.r = e.replicaId → id.c ≤ e.clock
  | none => True

instance (c : ConnectedClient) (id : Identifier) : Decidable (c.Minted id) := by
  unfold Minted
  cases c.engine <;> infer_instance

/-- The operation names nothing that is queued and nothing that is still to be minted. -/
def Apart (c : ConnectedClient) (op : Operation) : Prop :=
  ∀ id ∈ op.names, id ∉ c.queued ∧ c.Minted id

/-- What the operations with this identifier hang on, in the queue and in the document. -/
def anchors (c : ConnectedClient) (id : Identifier) : List Identifier :=
  (c.unacked.filter fun op => op.id = id).filterMap Operation.dependency ++
    ((c.engine.elim [] Engine.nodes).filter fun n => n.id = id).filterMap Node.parent

/-- When these identifiers leave the queue, what they hang on does not stay. -/
def Releases (c : ConnectedClient) (ids : List Identifier) : Prop :=
  ∀ id ∈ ids, id ∈ c.queued → ∀ d ∈ c.anchors id, d ∈ c.queued → d ∈ ids

instance (c : ConnectedClient) (op : Operation) : Decidable (c.Apart op) :=
  inferInstanceAs (Decidable (∀ id ∈ op.names, id ∉ c.queued ∧ c.Minted id))

instance (c : ConnectedClient) (ids : List Identifier) : Decidable (c.Releases ids) :=
  inferInstanceAs (Decidable (∀ id ∈ ids, id ∈ c.queued → ∀ d ∈ c.anchors id, d ∈ c.queued → d ∈ ids))

end ConnectedClient

namespace Informed

/-- A replica id that no operation in the list mentions. -/
def Unused (replicaId : Nat) (ops : List Operation) : Prop :=
  ∀ op ∈ ops, ∀ id ∈ op.names, id.r ≠ replicaId

/-- The job of the gate that runs next. -/
def nextJob (s : Informed) : Option GateJob :=
  match s.client.handshakeGate with
  | (generation, job) :: _ => if generation = s.client.handshakeGeneration then some job else none
  | [] => none

/-- Operations that arrive, in frames, chunks or an image, name no queued operation; no operation
leaves the queue before the one it hangs on; and an engine is started under a new replica id. -/
def Untangled (s : Informed) : ClientEvent → Prop
  | .ops (.ops _ ops) => ∀ op ∈ ops, s.client.Apart op
  | .ops (.opAck acks) => s.client.Releases (acks.map Prod.fst)
  | .ops (.opReject rejects _) => s.client.Releases (rejects.map Prod.fst)
  | .control (.welcome replicaId _ .ALREADY_CURRENT) =>
      Unused replicaId (s.client.unacked ++ s.heard.map Prod.snd)
  | .control (.catchupBegin _) => ∀ replicaId ∈ s.client.replicaId,
      Unused replicaId (s.client.unacked ++ s.heard.map Prod.snd)
  | .control (.snapshot _ nodes) => ∀ replicaId ∈ s.client.replicaId,
      Unused replicaId (s.client.unacked ++ snapshotOps nodes) ∧
        ∀ op ∈ snapshotOps nodes, ∀ id ∈ op.names, id ∉ s.client.queued
  | .gate _ =>
      match s.nextJob with
      | some (.catchupChunk _ ops) => ∀ op ∈ ops, s.client.Apart op
      | some (.alreadyHave _) => s.client.Releases s.client.helloUnackedIds
      | _ => True
  | _ => True

instance (replicaId : Nat) (ops : List Operation) : Decidable (Unused replicaId ops) :=
  inferInstanceAs (Decidable (∀ op ∈ ops, ∀ id ∈ op.names, id.r ≠ replicaId))

instance (s : Informed) (event : ClientEvent) : Decidable (s.Untangled event) := by
  unfold Untangled
  split
  all_goals first | infer_instance | skip
  split <;> infer_instance

/-! ### The invariant -/

/-- The nodes below a queued node are queued, what the client was told names nothing that is queued
or still to be minted, and only such operations wait. -/
structure Kept (s : Informed) : Prop where
  sound : s.client.toSyncClient.Sound
  reachable : ∀ e, s.client.engine = some e → e.Reachable
  below : ∀ e, s.client.engine = some e → ∀ n ∈ e.tree.nodes, ∀ p, n.parent = some p →
    p ∈ s.client.queued → n.id ∈ s.client.queued
  apart : ∀ row ∈ s.heard, s.client.Apart row.2
  based : ∀ op ∈ s.client.unacked, ∀ id ∈ op.names, s.client.Minted id
  waiting : ∀ e, s.client.engine = some e → ∀ op ∈ e.pending, ∃ row ∈ s.heard, row.2 = op

theorem kept_init : Kept init where
  sound := ⟨nofun, nofun⟩
  reachable := nofun
  below := nofun
  apart := nofun
  based := nofun
  waiting := nofun

namespace Kept

variable {c c' : ConnectedClient} {heard : List (Nat × Operation)} {e e' : Engine}

/-- Only the engine and the queue matter. -/
theorem congr (kept : Kept ⟨c, heard⟩) (engine : c'.engine = c.engine)
    (unacked : c'.unacked = c.unacked) : Kept ⟨c', heard⟩ := by
  have queued : c'.queued = c.queued := congrArg UnackedQueue.ids unacked
  have minted : ∀ id, c.Minted id → c'.Minted id := fun id old => by
    unfold ConnectedClient.Minted at old ⊢
    simp only [engine]
    exact old
  refine ⟨⟨?_, ?_⟩, ?_, ?_, fun row member id named => ?_, fun op member id named => ?_, ?_⟩
  · exact fun e same => kept.sound.engine e (engine ▸ same)
  · exact fun e same id member => kept.sound.queue e (engine ▸ same) id (queued ▸ member)
  · exact fun e same => kept.reachable e (engine ▸ same)
  · intro e same
    simp only [queued]
    exact kept.below e (engine ▸ same)
  · have old := kept.apart row member id named
    simp only [queued]
    exact ⟨old.1, minted id old.2⟩
  · exact minted id (kept.based op (unacked ▸ member) id named)
  · exact fun e same => kept.waiting e (engine ▸ same)

/-- An engine that only lost nodes. -/
structure Shrunk (e e' : Engine) : Prop where
  reachable : e.Reachable → e'.Reachable
  nodes : ∀ n ∈ e'.tree.nodes, n ∈ e.tree.nodes
  pending : e'.pending = e.pending
  replicaId : e'.replicaId = e.replicaId
  clock : e'.clock = e.clock

theorem shrunk_refl (e : Engine) : Shrunk e e := ⟨id, fun _ member => member, rfl, rfl, rfl⟩

theorem Shrunk.trans {e₁ : Engine} (first : Shrunk e e₁) (second : Shrunk e₁ e') : Shrunk e e' where
  reachable := second.reachable ∘ first.reachable
  nodes n member := first.nodes n (second.nodes n member)
  pending := second.pending.trans first.pending
  replicaId := second.replicaId.trans first.replicaId
  clock := second.clock.trans first.clock

theorem mem_anchors_of_node (reachable : e.Reachable) (resident : c.engine = some e) {n : Node}
    (member : n ∈ e.tree.nodes) {p : Identifier} (under : n.parent = some p) :
    p ∈ c.anchors n.id := by
  unfold ConnectedClient.anchors
  refine List.mem_append_right _ (List.mem_filterMap.mpr ⟨n, List.mem_filter.mpr ⟨?_, by simp⟩, under⟩)
  rw [resident, Option.elim_some, Engine.nodes, reachable.sound.wf.toArray_eq]
  exact member

theorem minted_of_shrunk
    (engine : ∀ e', c'.engine = some e' → ∃ e, c.engine = some e ∧ Shrunk e e') {id : Identifier}
    (minted : c.Minted id) : c'.Minted id := by
  unfold ConnectedClient.Minted at minted ⊢
  cases same : c'.engine with
  | none => trivial
  | some e' =>
      obtain ⟨e, resident, shrunk⟩ := engine e' same
      simp only [resident] at minted
      simp only [shrunk.replicaId, shrunk.clock]
      exact minted

theorem queued_of_unacked {ids : List Identifier}
    (unacked : ∀ op, op ∈ c'.unacked ↔ op ∈ c.unacked ∧ op.id ∉ ids) (id : Identifier) :
    id ∈ c'.queued ↔ id ∈ c.queued ∧ id ∉ ids := by
  simp only [SyncClient.queued, UnackedQueue.ids, List.mem_map, unacked]
  constructor
  · rintro ⟨op, ⟨member, out⟩, rfl⟩
    exact ⟨⟨op, member, rfl⟩, out⟩
  · rintro ⟨⟨op, member, rfl⟩, out⟩
    exact ⟨op, ⟨member, out⟩, rfl⟩

/-- Operations leave the queue, and the engine loses nodes at most. -/
theorem release (kept : Kept ⟨c, heard⟩) {ids : List Identifier} (releases : c.Releases ids)
    (unacked : ∀ op, op ∈ c'.unacked ↔ op ∈ c.unacked ∧ op.id ∉ ids)
    (engine : ∀ e', c'.engine = some e' → ∃ e, c.engine = some e ∧ Shrunk e e') :
    Kept ⟨c', heard⟩ := by
  have queue := queued_of_unacked unacked
  constructor
  · refine ⟨fun e' same => ?_, fun e' same id member own => ?_⟩
    · obtain ⟨e, resident, shrunk⟩ := engine e' same
      exact (shrunk.reachable (kept.reachable e resident)).sound
    · obtain ⟨e, resident, shrunk⟩ := engine e' same
      rw [shrunk.replicaId] at own
      rw [shrunk.clock]
      exact kept.sound.queue e resident id ((queue id).mp member).1 own
  · intro e' same
    obtain ⟨e, resident, shrunk⟩ := engine e' same
    exact shrunk.reachable (kept.reachable e resident)
  · intro e' same n member p under above
    obtain ⟨e, resident, shrunk⟩ := engine e' same
    obtain ⟨above, stays⟩ := (queue p).mp above
    have old := shrunk.nodes n member
    have inside := kept.below e resident n old p under above
    refine (queue n.id).mpr ⟨inside, fun released => stays ?_⟩
    exact releases n.id released inside p
      (mem_anchors_of_node (kept.reachable e resident) resident old under) above
  · intro row member id named
    obtain ⟨unqueued, minted⟩ := kept.apart row member id named
    exact ⟨fun inside => unqueued ((queue id).mp inside).1, minted_of_shrunk engine minted⟩
  · intro op member id named
    exact minted_of_shrunk engine (kept.based op ((unacked op).mp member).1 id named)
  · intro e' same op member
    obtain ⟨e, resident, shrunk⟩ := engine e' same
    exact kept.waiting e resident op (shrunk.pending ▸ member)

/-- What the server acknowledges names nothing that stays in the queue. -/
theorem apart_of_released (kept : Kept ⟨c, heard⟩) {ids : List Identifier}
    (releases : c.Releases ids)
    (unacked : ∀ op, op ∈ c'.unacked ↔ op ∈ c.unacked ∧ op.id ∉ ids)
    (engine : c'.engine = c.engine) {op : Operation} (member : op ∈ c.unacked)
    (released : op.id ∈ ids) : c'.Apart op := by
  have inside : op.id ∈ c.queued := List.mem_map_of_mem member
  intro id named
  refine ⟨fun stays => ?_, ?_⟩
  · obtain ⟨above, out⟩ := (queued_of_unacked unacked id).mp stays
    rcases List.mem_cons.mp named with rfl | anchor
    · exact out released
    · refine out (releases op.id released inside id (List.mem_append_left _ ?_) above)
      refine List.mem_filterMap.mpr ⟨op, List.mem_filter.mpr ⟨member, by simp⟩, ?_⟩
      exact Option.mem_toList.mp anchor
  · have old := kept.based op member id named
    unfold ConnectedClient.Minted at old ⊢
    rw [engine]
    exact old

/-- The engine grows by queued operations. -/
theorem grow (kept : Kept ⟨c, heard⟩) {ids : List Identifier} (before : c.engine = some e)
    (after : c'.engine = some e') (grows : Grows e e' ids)
    (queue : ∀ id, id ∈ c'.queued ↔ id ∈ c.queued ∨ id ∈ ids)
    (unacked : ∀ op ∈ c'.unacked, op ∈ c.unacked ∨
      ∀ d, op.dependency = some d → d ∈ e'.applied) : Kept ⟨c', heard⟩ := by
  have only : ∀ e₁, c'.engine = some e₁ → e₁ = e' := fun e₁ same =>
    Option.some.inj (same.symm.trans after)
  have sound := (kept.reachable e before).sound
  have later : ∀ id, c.Minted id → c'.Minted id := fun id minted => by
    unfold ConnectedClient.Minted at minted ⊢
    simp only [before] at minted
    simp only [after]
    intro own
    rw [grows.replicaId] at own
    exact le_trans (minted own) grows.clock
  have behind : ∀ id ∈ c'.queued, id.r = e'.replicaId → id.c ≤ e'.clock := fun id member own => by
    rcases (queue id).mp member with old | new
    · rw [grows.replicaId] at own
      exact le_trans (kept.sound.queue e before id old own) grows.clock
    · exact (grows.fresh id new).2.2
  constructor
  · refine ⟨fun e₁ same => ?_, fun e₁ same id member own => ?_⟩
    · rw [only e₁ same]
      exact grows.reachable.sound
    · rw [only e₁ same] at own ⊢
      exact behind id member own
  · intro e₁ same
    rw [only e₁ same]
    exact grows.reachable
  · intro e₁ same n member p under above
    rw [only e₁ same] at member
    rcases grows.nodes n member with ⟨m, old, skeleton⟩ | new
    · have id : m.id = n.id := congrArg InsertOperation.id skeleton
      have parent : m.parent = some p := (congrArg InsertOperation.parent skeleton).trans under
      rw [← id]
      refine (queue m.id).mpr ((queue p).mp above |>.elim (fun queued => Or.inl ?_) fun minted => ?_)
      · exact kept.below e before m old p parent queued
      · -- the parent is in the document, so it is not new
        obtain ⟨k, inside, named⟩ := sound.wf.exists_parent old parent
        have behind := sound.clock k.id (sound.known k inside)
        have ahead := (grows.fresh p minted).2.1
        rw [named] at behind
        omega
    · exact (queue n.id).mpr (Or.inr new)
  · intro row member id named
    obtain ⟨unqueued, minted⟩ := kept.apart row member id named
    refine ⟨fun inside => ?_, later id minted⟩
    rcases (queue id).mp inside with old | new
    · exact unqueued old
    · obtain ⟨own, ahead, -⟩ := grows.fresh id new
      unfold ConnectedClient.Minted at minted
      simp only [before] at minted
      have := minted own
      omega
  · intro op member id named
    rcases unacked op member with old | known
    · exact later id (kept.based op old id named)
    · unfold ConnectedClient.Minted
      simp only [after]
      intro own
      rcases List.mem_cons.mp named with rfl | anchor
      · exact behind op.id (List.mem_map_of_mem member) own
      · exact grows.reachable.sound.clock id (known id (Option.mem_toList.mp anchor))
  · intro e₁ same op member
    rw [only e₁ same, grows.pending] at member
    exact kept.waiting e before op member

/-- The client is told operations that name nothing queued. -/
theorem hear (kept : Kept ⟨c, heard⟩) {rows : List (Nat × Operation)}
    (apart : ∀ row ∈ rows, c.Apart row.2) : Kept ⟨c, heard ++ rows⟩ where
  sound := kept.sound
  reachable := kept.reachable
  below := kept.below
  apart row member := (List.mem_append.mp member).elim (kept.apart row) (apart row)
  based := kept.based
  waiting e resident op member := by
    obtain ⟨row, told, same⟩ := kept.waiting e resident op member
    exact ⟨row, List.mem_append_left _ told, same⟩

/-- An operation that the client was told reaches the engine. -/
theorem arrive (kept : Kept ⟨c, heard⟩) (before : c.engine = some e) {op : Operation}
    (told : ∃ row ∈ heard, row.2 = op) {buffered : Bool}
    (applied : e.applyRemote op none = .ok (buffered, e')) (after : c'.engine = some e')
    (unacked : c'.unacked = c.unacked) : Kept ⟨c', heard⟩ := by
  have only : ∀ e₁, c'.engine = some e₁ → e₁ = e' := fun e₁ same =>
    Option.some.inj (same.symm.trans after)
  have queued : c'.queued = c.queued := congrArg UnackedQueue.ids unacked
  have reachable := kept.reachable e before
  obtain ⟨buffered', e₀, applied', advanced, -⟩ := reachable.sound.applyRemote_spec op none
  obtain ⟨-, rfl⟩ := Prod.mk.inj (Except.ok.inj (applied'.symm.trans applied))
  have later : ∀ id, c.Minted id → c'.Minted id := fun id minted => by
    unfold ConnectedClient.Minted at minted ⊢
    simp only [before] at minted
    simp only [after]
    intro own
    rw [advanced.replicaId] at own
    exact le_trans (minted own) advanced.clock
  -- nothing that is told hangs on a queued operation
  have free : ∀ op, (∃ row ∈ heard, row.2 = op) → ∀ d, op.dependency = some d → d ∉ c.queued := by
    rintro op ⟨row, member, rfl⟩ d named
    exact (kept.apart row member d (List.mem_cons_of_mem _ (by rw [named]; simp))).1
  have consists : Consists (fun op => ∀ d, op.dependency = some d → d ∈ c.queued →
      op.id ∈ c.queued) e := by
    refine ⟨fun n member d under above => kept.below e before n member d under above,
      fun op member d named above => ?_⟩
    exact absurd above (free op (kept.waiting e before op member) d named)
  have consists' := consists.applyRemote reachable.sound
    (fun d named above => absurd above (free op told d named)) applied
  constructor
  · refine ⟨fun e₁ same => ?_, fun e₁ same id member own => ?_⟩
    · rw [only e₁ same]
      exact advanced.sound
    · rw [only e₁ same] at own ⊢
      rw [advanced.replicaId] at own
      exact le_trans (kept.sound.queue e before id (queued ▸ member) own) advanced.clock
  · intro e₁ same
    rw [only e₁ same]
    exact reachable.applyRemote applied
  · intro e₁ same n member p under above
    rw [only e₁ same] at member
    simp only [queued] at above ⊢
    exact consists'.nodes n member p under above
  · intro row member id named
    obtain ⟨unqueued, minted⟩ := kept.apart row member id named
    simp only [queued]
    exact ⟨unqueued, later id minted⟩
  · exact fun op member id named => later id (kept.based op (unacked ▸ member) id named)
  · intro e₁ same x member
    rw [only e₁ same] at member
    rcases applyRemote_pending applied with sub | ⟨-, pending⟩
    · exact kept.waiting e before x (sub.subset member)
    · rw [pending] at member
      rcases List.mem_append.mp member with old | last
      · exact kept.waiting e before x old
      · rw [List.mem_singleton.mp last]
        exact told

theorem applyLive (kept : Kept ⟨c, heard⟩) {seq : Nat} {ops : List Operation}
    (told : ∀ op ∈ ops, ∃ row ∈ heard, row.2 = op) (applied : c.applyLive seq ops = .ok c') :
    Kept ⟨c', heard⟩ := by
  induction ops generalizing c seq with
  | nil =>
      obtain rfl := Except.ok.inj applied
      exact kept
  | cons op ops ih =>
      rw [ConnectedClient.applyLive] at applied
      split at applied
      · obtain rfl := Except.ok.inj applied
        exact kept
      · rename_i e before
        obtain ⟨⟨buffered, e'⟩, first, rest⟩ := Throwing.ok_of_bind applied
        refine ih (kept.arrive before (told op List.mem_cons_self) first ?_ ?_)
          (fun x member => told x (List.mem_cons_of_mem _ member)) rest
        · split_ifs <;> rfl
        · split_ifs <;> rfl

theorem applyChunk (kept : Kept ⟨c, heard⟩) {throughSeq : Nat} {ops : List Operation}
    (told : ∀ op ∈ ops, ∃ row ∈ heard, row.2 = op)
    (applied : c.applyChunk throughSeq ops = .ok c') : Kept ⟨c', heard⟩ := by
  induction ops generalizing c with
  | nil =>
      obtain rfl := Except.ok.inj applied
      exact kept
  | cons op ops ih =>
      rw [ConnectedClient.applyChunk] at applied
      split at applied
      · obtain rfl := Except.ok.inj applied
        exact kept
      · rename_i e before
        obtain ⟨⟨buffered, e'⟩, first, rest⟩ := Throwing.ok_of_bind applied
        refine ih (kept.arrive before (told op List.mem_cons_self) first ?_ ?_)
          (fun x member => told x (List.mem_cons_of_mem _ member)) rest
        · unfold ConnectedClient.noteCatchupPossiblyBuffered
          split_ifs <;> rfl
        · unfold ConnectedClient.noteCatchupPossiblyBuffered
          split_ifs <;> rfl

/-! ### Seeding -/

/-- A node of the base is a node of the document, perhaps with its tombstone reverted. -/
theorem of_mem_base {nodes : List Node} {unackedIds : List Identifier} {n' : Node}
    (member : n' ∈ buildCleanCatchupBase nodes unackedIds) : ∃ n ∈ nodes, n.id ∉ unackedIds ∧
      n.toInsert = n'.toInsert ∧ (n' = n ∨ n'.deleted = false ∧ n'.deletedBy = none) := by
  obtain ⟨n, inside, kept, rfl⟩ := mem_buildCleanCatchupBase.mp member
  refine ⟨n, inside, kept, ?_⟩
  split_ifs
  · exact ⟨rfl, Or.inr ⟨rfl, rfl⟩⟩
  · exact ⟨rfl, Or.inl rfl⟩

/-- A tombstone is reverted only when its delete is queued. -/
theorem mem_base_of {nodes : List Node} {unackedIds : List Identifier} {n : Node}
    (inside : n ∈ nodes) (kept : n.id ∉ unackedIds) :
    ∃ n' ∈ buildCleanCatchupBase nodes unackedIds, n'.toInsert = n.toInsert ∧
      (n'.deletedBy = none ∨ n'.deletedBy = n.deletedBy) ∧
      ∀ d, n.deletedBy = some d → d ∉ unackedIds → n'.deletedBy = some d := by
  refine ⟨_, mem_buildCleanCatchupBase.mpr ⟨n, inside, kept, rfl⟩, ?_⟩
  split_ifs with reverted
  · refine ⟨rfl, Or.inl rfl, fun d dot spared => ?_⟩
    rw [dot] at reverted
    simp [spared] at reverted
  · exact ⟨rfl, Or.inr rfl, fun d dot _ => dot⟩

theorem nodup_base {nodes : List Node} (nodup : (nodes.map Node.id).Nodup)
    (unackedIds : List Identifier) :
    ((buildCleanCatchupBase nodes unackedIds).map Node.id).Nodup := by
  have one : ∀ n n' : Node, (if n.id ∈ unackedIds then none
      else if n.deleted && n.deletedBy.any fun d => decide (d ∈ unackedIds) then
        some { n with deleted := false, deletedBy := none } else some n) = some n' →
      n'.id = n.id := by
    intro n n' shown
    split_ifs at shown
    · rw [← Option.some.inj shown]
    · rw [Option.some.inj shown]
  unfold buildCleanCatchupBase
  refine List.pairwise_map.mpr (List.pairwise_filterMap.mpr
    ((List.pairwise_map.mp nodup).imp fun {n m} other a shown b shown' => ?_))
  rw [one n a shown, one m b shown']
  exact other

/-- The base is closed under parents. -/
theorem base_parent (kept : Kept ⟨c, heard⟩) {n : Node} (member : n ∈ c.cleanBase) {p : Identifier}
    (under : n.parent = some p) : ∃ m ∈ c.cleanBase, m.id = p := by
  unfold ConnectedClient.cleanBase at member ⊢
  cases resident : c.engine with
  | none =>
      rw [resident] at member
      cases member
  | some e =>
      rw [resident] at member
      simp only at member ⊢
      have sound := (kept.reachable e resident).sound
      have shown : e.nodes = e.tree.nodes := sound.wf.toArray_eq
      rw [shown] at member ⊢
      obtain ⟨n₀, inside, unqueued, same, -⟩ := of_mem_base member
      have under₀ : n₀.parent = some p := (congrArg InsertOperation.parent same).trans under
      obtain ⟨m, there, rfl⟩ := sound.wf.exists_parent inside under₀
      have spared : m.id ∉ c.unacked.map Operation.id := fun above =>
        unqueued (kept.below e resident n₀ inside m.id under₀ above)
      obtain ⟨m', base, skeleton, -⟩ := mem_base_of there spared
      exact ⟨m', base, congrArg InsertOperation.id skeleton⟩

/-- Replaying the base gives an engine with its nodes and nothing that waits. -/
theorem seed_base (kept : Kept ⟨c, heard⟩) (replicaId : Nat) :
    ∃ e', seedEngineFromSnapshot replicaId c.cleanBase = .ok e' ∧ e'.pending = [] ∧
      e'.replicaId = replicaId ∧ e'.tree.WF ∧ ∀ n, n ∈ e'.tree.nodes ↔ n ∈ c.cleanBase := by
  have closed := fun n member p under => kept.base_parent (n := n) member (p := p) under
  unfold ConnectedClient.cleanBase at closed ⊢
  cases resident : c.engine with
  | none =>
      exact ⟨Engine.new replicaId, rfl, rfl, rfl, FugueTree.wf_empty, fun n => Iff.rfl⟩
  | some e =>
      rw [resident] at closed
      have reachable := kept.reachable e resident
      have shown : e.nodes = e.tree.nodes := reachable.sound.wf.toArray_eq
      simp only [shown] at closed ⊢
      refine Seeding.seed_closed reachable (nodup_base reachable.sound.wf.nodup _) (fun n member => ?_)
        (fun n member => ?_) (fun n member d dot => ?_) closed replicaId
      · obtain ⟨m, inside, -, same, -⟩ := of_mem_base member
        exact ⟨m, inside, same⟩
      · obtain ⟨m, inside, -, -, rfl | ⟨deleted, dot⟩⟩ := of_mem_base member
        · exact reachable.marked.flags n inside
        · rw [deleted, dot]
          rfl
      · obtain ⟨m, inside, -, -, rfl | ⟨-, unset⟩⟩ := of_mem_base member
        · exact ⟨n, inside, rfl, dot⟩
        · rw [unset] at dot
          cases dot

/-- A fresh engine took the resident one's place: its replica id is in no operation that the client
knows, so what holds of these operations holds as before. -/
theorem reseat {ops : List Operation} {rows : List (Nat × Operation)} {replicaId : Nat}
    (unused : Unused replicaId (c.unacked ++ ops)) (after : c'.engine = some e')
    (unacked : c'.unacked = c.unacked) (reachable : e'.Reachable) (replica : e'.replicaId = replicaId)
    (below : ∀ n ∈ e'.tree.nodes, ∀ p, n.parent = some p → p ∈ c.queued → n.id ∈ c.queued)
    (told : ∀ row ∈ rows, row.2 ∈ ops) (free : ∀ row ∈ rows, ∀ id ∈ row.2.names, id ∉ c.queued)
    (waiting : ∀ op ∈ e'.pending, ∃ row ∈ rows, row.2 = op) : Kept ⟨c', rows⟩ := by
  have only : ∀ e, c'.engine = some e → e = e' := fun e same =>
    Option.some.inj (same.symm.trans after)
  have queued : c'.queued = c.queued := congrArg UnackedQueue.ids unacked
  have minted : ∀ op ∈ c.unacked ++ ops, ∀ id ∈ op.names, c'.Minted id :=
    fun op member id named => by
      unfold ConnectedClient.Minted
      simp only [after]
      intro own
      rw [replica] at own
      exact absurd own (unused op member id named)
  constructor
  · refine ⟨fun e same => ?_, fun e same id member own => ?_⟩
    · rw [only e same]
      exact reachable.sound
    · rw [only e same, replica] at own
      obtain ⟨op, inside, rfl⟩ := List.mem_map.mp (queued ▸ member)
      exact absurd own (unused op (List.mem_append_left _ inside) op.id List.mem_cons_self)
  · intro e same
    rw [only e same]
    exact reachable
  · intro e same
    rw [only e same]
    simp only [queued]
    exact below
  · intro row member id named
    simp only [queued]
    exact ⟨free row member id named, minted row.2 (List.mem_append_right _ (told row member)) id named⟩
  · exact fun op member id named =>
      minted op (List.mem_append_left _ (unacked ▸ member)) id named
  · intro e same
    rw [only e same]
    exact waiting

/-- An engine that was built from the base under a new replica id. -/
theorem rebuild (kept : Kept ⟨c, heard⟩) {replicaId : Nat}
    (unused : Unused replicaId (c.unacked ++ heard.map Prod.snd))
    (seeded : seedEngineFromSnapshot replicaId c.cleanBase = .ok e') (after : c'.engine = some e')
    (unacked : c'.unacked = c.unacked) : Kept ⟨c', heard⟩ := by
  obtain ⟨e₁, seeded₁, empty, replica, wf, members⟩ := kept.seed_base replicaId
  obtain rfl := Except.ok.inj (seeded₁.symm.trans seeded)
  refine reseat unused after unacked (reachable_seed seeded) replica ?_
    (fun row member => List.mem_map_of_mem member)
    (fun row member id named => (kept.apart row member id named).1) ?_
  · intro n member p under above
    rw [members] at member
    obtain ⟨m, base, named⟩ := kept.base_parent member under
    -- the base has no queued node
    unfold ConnectedClient.cleanBase at base
    cases resident : c.engine with
    | none =>
        rw [resident] at base
        cases base
    | some e₀ =>
        rw [resident] at base
        obtain ⟨m₀, -, unqueued, skeleton, -⟩ := of_mem_base base
        have id : m₀.id = m.id := congrArg InsertOperation.id skeleton
        rw [id, named] at unqueued
        exact absurd above unqueued
  · intro op member
    rw [empty] at member
    cases member

/-- An engine that was seeded with an image. -/
theorem image {replicaId seq : Nat} {nodes : List Node}
    (unused : Unused replicaId (c.unacked ++ snapshotOps nodes))
    (free : ∀ op ∈ snapshotOps nodes, ∀ id ∈ op.names, id ∉ c.queued)
    (seeded : seedEngineFromSnapshot replicaId nodes = .ok e') (after : c'.engine = some e')
    (unacked : c'.unacked = c.unacked) :
    Kept ⟨c', (snapshotOps nodes).map fun op => (seq, op)⟩ := by
  have replica : e'.replicaId = replicaId :=
    ((sound_new replicaId).replaySnapshotNodesInto_spec seeded).replicaId
  have consists : Consists (fun op => op ∈ snapshotOps nodes) e' :=
    consists_seed (fun op member => member) seeded
  refine reseat unused after unacked (reachable_seed seeded) replica ?_ ?_ ?_ ?_
  · intro n member p under above
    refine absurd above (free _ (consists.nodes n member) p ?_)
    refine List.mem_cons_of_mem _ ?_
    rw [show (Operation.insert n.toInsert).dependency = n.parent from rfl, under]
    simp
  · intro row member
    obtain ⟨op, inside, rfl⟩ := List.mem_map.mp member
    exact inside
  · intro row member id named
    obtain ⟨op, inside, rfl⟩ := List.mem_map.mp member
    exact free op inside id named
  · intro op member
    exact ⟨(seq, op), List.mem_map_of_mem (consists.pending op member), rfl⟩

/-! ### The queue -/

theorem mem_foldl_ack (ids : List Identifier) {entries : List Operation} {op : Operation} :
    op ∈ ids.foldl UnackedQueue.ack entries ↔ op ∈ entries ∧ op.id ∉ ids := by
  induction ids generalizing entries with
  | nil => simp
  | cons id ids ih =>
      rw [List.foldl_cons, ih, UnackedQueue.ack, List.mem_filter, List.mem_cons, not_or, and_assoc]
      simp

/-- Every identifier takes its entry out of the queue, if there is one. -/
theorem mem_foldl_settle {f : List Operation × List Operation → Identifier →
      List Operation × List Operation}
    (missing : ∀ p id, UnackedQueue.get p.1 id = none → (f p id).1 = p.1)
    (taken : ∀ p id entry, UnackedQueue.get p.1 id = some entry →
      (f p id).1 = UnackedQueue.ack p.1 id)
    (ids : List Identifier) (p : List Operation × List Operation) {op : Operation} :
    op ∈ (ids.foldl f p).1 ↔ op ∈ p.1 ∧ op.id ∉ ids := by
  induction ids generalizing p with
  | nil => simp
  | cons id ids ih =>
      rw [List.foldl_cons, ih, List.mem_cons, not_or]
      cases found : UnackedQueue.get p.1 id with
      | none =>
          rw [missing p id found]
          refine and_congr_right fun member => (and_iff_right fun same => ?_).symm
          exact List.find?_eq_none.mp found op member (decide_eq_true same)
      | some entry =>
          rw [taken p id entry found, UnackedQueue.ack, List.mem_filter, and_assoc]
          simp

/-- All that was reported leaves the queue. -/
theorem mem_settleHello {alreadyHave : List Identifier} {op : Operation} :
    op ∈ (c.settleHello alreadyHave).1 ↔ op ∈ c.unacked ∧ op.id ∉ c.helloUnackedIds := by
  refine mem_foldl_settle (fun p id found => ?_) (fun p id entry found => ?_) c.helloUnackedIds
    (c.unacked, [])
  · obtain ⟨queue, toReconcile⟩ := p
    dsimp only at found ⊢
    rw [found]
  · obtain ⟨queue, toReconcile⟩ := p
    dsimp only at found ⊢
    rw [found]

theorem recordAll_spec (ops : List Operation) (c : ConnectedClient) :
    (c.recordAll ops).engine = c.engine ∧
      (∀ id, id ∈ (c.recordAll ops).queued ↔ id ∈ c.queued ∨ id ∈ ops.map Operation.id) ∧
      ∀ op ∈ (c.recordAll ops).unacked, op ∈ c.unacked ∨ op ∈ ops := by
  induction ops generalizing c with
  | nil => exact ⟨rfl, by simp [ConnectedClient.recordAll], fun op member => Or.inl member⟩
  | cons op ops ih =>
      obtain ⟨engine, queue, unacked⟩ := ih { c with toSyncClient := c.toSyncClient.record op }
      refine ⟨engine, fun id => ?_, fun x member => ?_⟩
      · rw [List.map_cons, List.mem_cons, ← or_assoc, ← SyncClient.mem_queued_record]
        exact queue id
      · rcases unacked x member with old | later
        · exact (mem_setEntry old).imp_right fun (same : x = op) =>
          same ▸ List.mem_cons_self
        · exact Or.inr (List.mem_cons_of_mem _ later)

/-- Sending changes neither the engine nor the queue. -/
theorem transmit_spec (frames : List (List Operation)) (s : SyncClient) :
    (frames.foldl SyncClient.transmit s).engine = s.engine ∧
      (frames.foldl SyncClient.transmit s).unacked = s.unacked := by
  induction frames generalizing s with
  | nil => exact ⟨rfl, rfl⟩
  | cons frame frames ih =>
      obtain ⟨engine, unacked⟩ := ih (s.transmit frame)
      exact ⟨engine.trans (SyncClient.transmit_engine s frame),
        unacked.trans (SyncClient.transmit_unacked s frame)⟩

/-! ### Each event -/

theorem finish (kept : Kept ⟨c, heard⟩) (releases : c.Releases c.helloUnackedIds)
    {alreadyHave : List Identifier} {nowMs : Nat}
    (finished : c.finishHandshakeAfterAlreadyHave alreadyHave nowMs = .ok c') :
    Kept ⟨c', heard⟩ := by
  unfold ConnectedClient.finishHandshakeAfterAlreadyHave at finished
  cases resident : c.engine with
  | none =>
      rw [resident] at finished
      obtain rfl := Except.ok.inj finished
      exact kept
  | some e =>
      rw [resident] at finished
      have released : Kept ⟨{ c with unacked := (c.settleHello alreadyHave).1 }, heard⟩ :=
        kept.release releases (fun op => mem_settleHello)
          fun e' same => ⟨e', same, shrunk_refl e'⟩
      obtain ⟨s, replayed, done⟩ := Throwing.ok_of_bind finished
      obtain ⟨grows, based⟩ := reconcile_replays (kept.reachable e resident) replayed
      set settled : ConnectedClient :=
        { c with unacked := (c.settleHello alreadyHave).1, engine := some s.engine }
      obtain ⟨engine, queue, unacked⟩ := recordAll_spec s.resent settled
      have grown : Kept ⟨settled.recordAll s.resent, heard⟩ :=
        released.grow resident engine grows queue fun op member =>
          (unacked op member).imp_right (based op)
      simp only at done
      split_ifs at done
      · obtain rfl := Except.ok.inj done
        exact grown
      · obtain rfl := Except.ok.inj done
        obtain ⟨same, same'⟩ := transmit_spec (ConnectedClient.operationsToWireMessages s.resent)
          (settled.recordAll s.resent).toSyncClient
        exact grown.congr same same'

theorem shrunk_tryRevert (reachable : e.Reachable) (id : Identifier) :
    Shrunk e (e.tryRevertLocalInsert id).2 := by
  have reverted : (e.tryRevertLocalInsert id).2.Reachable :=
    reachable.call (show e.call (.tryRevertLocalInsert id) = .ok _ from rfl)
  obtain ⟨tree, same, -, sub⟩ := reachable.sound.tryRevert_frame id
  rw [same] at reverted ⊢
  exact ⟨fun _ => reverted, fun m member => sub.subset member, rfl, rfl, rfl⟩

/-- A rejection takes an operation out of the queue, and perhaps a node out of the engine. -/
theorem handleReject_spec (reachable : ∀ e, c.engine = some e → e.Reachable) (detail : String)
    (rejected : Identifier × RejectReason) :
    (c.handleReject detail rejected).unacked = UnackedQueue.ack c.unacked rejected.1 ∧
      ∀ e', (c.handleReject detail rejected).engine = some e' →
        ∃ e, c.engine = some e ∧ Shrunk e e' := by
  unfold ConnectedClient.handleReject
  simp only
  split
  · exact ⟨rfl, fun e' same => ⟨e', same, shrunk_refl e'⟩⟩
  · rename_i op found
    unfold ConnectedClient.revert ConnectedClient.preserveRejected
    split
    · rename_i ins e resident
      refine ⟨rfl, fun e' same => ⟨e, resident, ?_⟩⟩
      rw [← Option.some.inj same]
      exact shrunk_tryRevert (reachable e resident) ins.id
    · exact ⟨rfl, fun e' same => ⟨e', same, shrunk_refl e'⟩⟩

theorem handleRejects_spec (reachable : ∀ e, c.engine = some e → e.Reachable) (detail : String)
    (rejects : List (Identifier × RejectReason)) {c' : ConnectedClient}
    (handled : rejects.foldl (fun c rejected => c.handleReject detail rejected) c = c') :
    c'.unacked = (rejects.map Prod.fst).foldl UnackedQueue.ack c.unacked ∧
      ∀ e', c'.engine = some e' → ∃ e, c.engine = some e ∧ Shrunk e e' := by
  induction rejects generalizing c with
  | nil =>
      obtain rfl := handled
      exact ⟨rfl, fun e' same => ⟨e', same, shrunk_refl e'⟩⟩
  | cons rejected rejects ih =>
      obtain ⟨unacked, engine⟩ := handleReject_spec reachable detail rejected
      obtain ⟨unacked', engine'⟩ := ih (fun e₁ same => by
        obtain ⟨e, resident, shrunk⟩ := engine e₁ same
        exact shrunk.reachable (reachable e resident)) handled
      refine ⟨by rw [unacked', unacked]; rfl, fun e' same => ?_⟩
      obtain ⟨e₁, between, later⟩ := engine' e' same
      obtain ⟨e, resident, first⟩ := engine e₁ between
      exact ⟨e, resident, first.trans later⟩

theorem handleOpsMessage (kept : Kept ⟨c, heard⟩) {msg : OpsFrameMessage}
    (untangled : Untangled ⟨c, heard⟩ (.ops msg)) (handled : c.handleOpsMessage msg = .ok c') :
    Kept ⟨c', hears ⟨c, heard⟩ (.ops msg)⟩ := by
  cases msg with
  | ops seq ops =>
      have told : Kept ⟨c, heard ++ numberedFrom seq ops⟩ := kept.hear fun row member =>
        untangled row.2 (mem_of_numberedFrom member)
      simp only [ConnectedClient.handleOpsMessage, ConnectedClient.handleOps] at handled
      split_ifs at handled
      · obtain rfl := Except.ok.inj handled
        exact told
      · obtain ⟨c₁, applied, done⟩ := Throwing.ok_of_bind handled
        obtain rfl := Except.ok.inj done
        have live : Kept ⟨c₁, heard ++ numberedFrom seq ops⟩ :=
          told.applyLive (fun op member => ?_) applied
        · exact live.congr rfl rfl
        · rw [← map_snd_numberedFrom seq ops] at member
          obtain ⟨row, inside, same⟩ := List.mem_map.mp member
          exact ⟨row, List.mem_append_right _ inside, same⟩
  | opAck acks =>
      have handled := Except.ok.inj handled
      have engine : c'.engine = c.engine := by
        rw [← handled]
        rfl
      have unacked : ∀ op, op ∈ c'.unacked ↔ op ∈ c.unacked ∧ op.id ∉ acks.map Prod.fst := by
        intro op
        rw [← handled]
        exact mem_foldl_ack _
      have released : Kept ⟨c', heard⟩ :=
        kept.release untangled unacked fun e' same => ⟨e', engine ▸ same, shrunk_refl e'⟩
      refine released.hear fun row member => ?_
      obtain ⟨ack, acked, found⟩ := List.mem_filterMap.mp member
      obtain ⟨op, got, rfl⟩ := Option.map_eq_some_iff.mp found
      have same : op.id = ack.1 := by simpa using List.find?_some got
      have there : op ∈ c.unacked := List.mem_of_find?_eq_some got
      exact kept.apart_of_released untangled unacked engine there
        (same ▸ List.mem_map_of_mem acked)
  | opReject rejects detail =>
      have handled := Except.ok.inj handled
      obtain ⟨unacked, engine⟩ := handleRejects_spec kept.reachable detail rejects handled
      refine kept.release untangled (fun op => ?_) engine
      rw [unacked]
      exact mem_foldl_ack _

theorem handleControl (kept : Kept ⟨c, heard⟩) {msg : ControlMessage}
    (untangled : Untangled ⟨c, heard⟩ (.control msg)) (handled : c.handleControl msg = .ok c') :
    Kept ⟨c', hears ⟨c, heard⟩ (.control msg)⟩ := by
  cases msg with
  | welcome replicaId role syncMode =>
      have welcomed : Kept ⟨{ c with
          replicaId := some replicaId, role := some role, hasAnyAccess := true }, heard⟩ :=
        kept.congr rfl rfl
      simp only [ConnectedClient.handleControl] at handled
      split_ifs at handled with current
      · subst current
        obtain ⟨e, seeded, rfl⟩ := ConnectedClient.seedEngineFromSnapshot_ok handled
        exact welcomed.rebuild untangled seeded rfl rfl
      · obtain rfl := Except.ok.inj handled
        exact welcomed
  | snapshot seq nodes =>
      simp only [ConnectedClient.handleControl, ConnectedClient.handleSnapshot] at handled
      unfold hears
      cases known : c.replicaId with
      | none =>
          rw [known] at handled
          obtain rfl := Except.ok.inj handled
          exact kept
      | some replicaId =>
          rw [known] at handled
          obtain ⟨e, seeded, rfl⟩ := ConnectedClient.seedEngineFromSnapshot_ok handled
          obtain ⟨unused, free⟩ := untangled replicaId known
          simp only [Option.isSome_some, if_true]
          exact image unused free seeded rfl rfl
  | catchupBegin totalOps =>
      simp only [ConnectedClient.handleControl, ConnectedClient.rebuildEngineForReconnect]
        at handled
      split at handled
      · obtain rfl := Except.ok.inj handled
        exact kept
      · rename_i replicaId known
        obtain ⟨e, seeded, rfl⟩ := ConnectedClient.seedEngineFromSnapshot_ok handled
        exact kept.rebuild (untangled replicaId known) seeded rfl rfl
  | catchupChunk throughSeq ops =>
      obtain rfl := Except.ok.inj handled
      exact kept.congr rfl rfl
  | catchupEnd toSeq =>
      obtain rfl := Except.ok.inj handled
      exact kept.congr rfl rfl
  | alreadyHave alreadyHave =>
      obtain rfl := Except.ok.inj handled
      exact kept.congr rfl rfl
  | permissionChanged role =>
      obtain rfl := Except.ok.inj handled
      exact kept.congr rfl rfl

theorem runGate (kept : Kept ⟨c, heard⟩) {nowMs : Nat}
    (untangled : Untangled ⟨c, heard⟩ (.gate nowMs)) (ran : c.runGate nowMs = .ok c') :
    Kept ⟨c', hears ⟨c, heard⟩ (.gate nowMs)⟩ := by
  obtain ⟨generation, job, gate, chained, ⟨stale, rfl⟩ | ⟨current, ran⟩⟩ :=
    ConnectedClient.runGate_cases ran
  · have quiet : hears ⟨c, heard⟩ (.gate nowMs) = heard := by
      unfold hears
      simp only [chained]
      cases job <;> simp [stale]
    rw [quiet]
    exact kept.congr rfl rfl
  · have started : Kept ⟨{ c with handshakeGate := gate }, heard⟩ := kept.congr rfl rfl
    unfold Untangled nextJob at untangled
    simp only [chained, current, if_true] at untangled
    cases job with
    | catchupChunk throughSeq ops =>
        have news : hears ⟨c, heard⟩ (.gate nowMs) = heard ++ chunkNumbers throughSeq ops := by
          unfold hears
          simp only [chained, current, if_true]
        rw [news]
        simp only [ConnectedClient.runJob] at ran
        have told : Kept ⟨{ c with handshakeGate := gate },
            heard ++ chunkNumbers throughSeq ops⟩ := started.hear fun row member =>
          untangled row.2 (by
            rw [← map_snd_chunkNumbers throughSeq ops]
            exact List.mem_map_of_mem member)
        split_ifs at ran
        · obtain rfl := Except.ok.inj ran
          exact told
        · obtain ⟨c₁, applied, done⟩ := Throwing.ok_of_bind ran
          obtain rfl := Except.ok.inj done
          have reached := told.applyChunk (fun op member => by
            rw [← map_snd_chunkNumbers throughSeq ops] at member
            obtain ⟨row, inside, same⟩ := List.mem_map.mp member
            exact ⟨row, List.mem_append_right _ inside, same⟩) applied
          exact reached.congr rfl rfl
    | catchupEnd toSeq =>
        have news : hears ⟨c, heard⟩ (.gate nowMs) = heard := by
          unfold hears
          simp only [chained]
        rw [news]
        obtain rfl := Except.ok.inj ran
        exact started.congr rfl rfl
    | alreadyHave alreadyHave =>
        have news : hears ⟨c, heard⟩ (.gate nowMs) = heard := by
          unfold hears
          simp only [chained]
        rw [news]
        exact started.finish untangled ran

/-- A step that meets the condition keeps the invariant. -/
theorem step {isClusterContinuing : Nat → Bool} {s s' : Informed} {event : ClientEvent}
    (kept : Kept s) (untangled : s.Untangled event)
    (moved : Informed.step isClusterContinuing s event = .ok s') : Kept s' := by
  obtain ⟨c, heard⟩ := s
  obtain ⟨c', reacted, done⟩ := Throwing.ok_of_bind moved
  obtain rfl := Except.ok.inj done
  cases event with
  | connect nowMs => obtain rfl := Except.ok.inj reacted; exact kept.congr rfl rfl
  | reopen => obtain rfl := Except.ok.inj reacted; exact kept.congr rfl rfl
  | opened => obtain rfl := Except.ok.inj reacted; exact kept.congr rfl rfl
  | closing => obtain rfl := Except.ok.inj reacted; exact kept.congr rfl rfl
  | closed nowMs => obtain rfl := Except.ok.inj reacted; exact kept.congr rfl rfl
  | disconnect nowMs => obtain rfl := Except.ok.inj reacted; exact kept.congr rfl rfl
  | discardRejected => obtain rfl := Except.ok.inj reacted; exact kept.congr rfl rfl
  | edit call nowMs =>
      obtain rfl := Except.ok.inj reacted
      rcases SyncClient.perform_grows kept.sound kept.reachable isClusterContinuing nowMs call with
        same | ⟨e, e', ids, before, after, grows, queue, unacked⟩
      · exact kept.congr (congrArg SyncClient.engine same) (congrArg SyncClient.unacked same)
      · exact kept.grow before after grows queue unacked
  | control msg => exact kept.handleControl untangled reacted
  | ops msg => exact kept.handleOpsMessage untangled reacted
  | gate nowMs => exact kept.runGate untangled reacted

/-! ### What the base keeps -/

/-- What showed still shows in an engine that has the nodes of the base. -/
theorem appears_of_base (kept : Kept ⟨c, heard⟩) (resident : c.engine = some e)
    (members : ∀ n, n ∈ e'.tree.nodes ↔ n ∈ c.cleanBase) {row : Nat × Operation}
    (told : row ∈ heard) (appears : Appears e row.2) : Appears e' row.2 := by
  have apart := kept.apart row told
  have base : ∀ n ∈ e.tree.nodes, n.id ∈ row.2.names → ∃ n' ∈ e'.tree.nodes,
      n'.toInsert = n.toInsert ∧ (n'.deletedBy = none ∨ n'.deletedBy = n.deletedBy) ∧
      ∀ d, n.deletedBy = some d → d ∉ c.queued → n'.deletedBy = some d := by
    intro n member named
    have shown : e.nodes = e.tree.nodes := (kept.reachable e resident).sound.wf.toArray_eq
    obtain ⟨n', inside, rest⟩ := mem_base_of member (apart n.id named).1
    refine ⟨n', (members n').mpr ?_, rest⟩
    unfold ConnectedClient.cleanBase
    rw [resident]
    simp only [shown]
    exact inside
  have own : row.2.id ∈ row.2.names := List.mem_cons_self
  cases op : row.2 with
  | insert ins =>
      rw [op] at appears base own
      obtain ⟨n, member, rfl⟩ := appears
      obtain ⟨n', inside, same, -⟩ := base n member own
      exact ⟨n', inside, same⟩
  | delete del =>
      rw [op] at appears base own
      obtain ⟨n, member, target, dot⟩ := appears
      obtain ⟨n', inside, same, -, kept'⟩ := base n member (by simp [Operation.names,
        Operation.dependency, target])
      have id : n'.id = n.id := congrArg InsertOperation.id same
      exact ⟨n', inside, id.trans target, kept' del.id dot (apart del.id (op ▸ own)).1⟩
  | undelete und =>
      rw [op] at appears base
      obtain ⟨n, member, target, others⟩ := appears
      obtain ⟨n', inside, same, dots, -⟩ := base n member (by simp [Operation.names,
        Operation.dependency, target])
      have id : n'.id = n.id := congrArg InsertOperation.id same
      refine ⟨n', inside, id.trans target, fun d dot => ?_⟩
      rcases dots with unset | same'
      · rw [unset] at dot
        cases dot
      · exact others d (same' ▸ dot)

theorem baseClosed {s : Informed} (kept : Kept s) : s.BaseClosed where
  closed n member p under := kept.base_parent member under
  rebuilt replicaId := by
    obtain ⟨e', seeded, empty, -, -, members⟩ := kept.seed_base replicaId
    exact ⟨e', seeded, empty, fun e resident row told _ shows =>
      kept.appears_of_base resident members told shows⟩

end Kept

/-! ### Runs -/

/-- Along every run whose steps meet the condition, the base is closed under parents, replaying it
leaves nothing waiting, and what the client was told and shows is shown by the rebuilt engine. -/
theorem base_closed (isClusterContinuing : Nat → Bool) (events : List ClientEvent)
    (each : Run.Each (step isClusterContinuing) Untangled init events) :
    Run.Always (step isClusterContinuing) BaseClosed init events := by
  have always : Run.Always (step isClusterContinuing) Kept init events :=
    Run.always_of_each (fun s event s' kept untangled moved => kept.step untangled moved)
      kept_init each
  exact always.imp fun s kept => kept.baseClosed

/-- A client joins an empty document. -/
def joined : List ClientEvent :=
  [.connect 0, .opened, .control (.welcome 1 .EDITOR .SNAPSHOT), .control (.snapshot 0 []),
    .control (.alreadyHave []), .gate 1]

/-- The client types; its insert is acknowledged before another replica writes after it; then the
client deletes, types again, and reconnects with a catch-up. -/
def reconnects : List ClientEvent := joined ++
  [.edit (.localInsert 0 97 none) 2, .ops (.opAck [(⟨1, 1⟩, 1)]),
    .ops (.ops 2 [.insert ⟨⟨2, 2⟩, 98, some ⟨1, 1⟩, .R, false⟩]), .edit (.localDelete 1 1) 3,
    .edit (.localInsert 1 99 none) 3, .closed 4, .connect 5, .opened,
    .control (.welcome 3 .EDITOR .CATCHUP), .control (.catchupBegin 1),
    .control (.catchupChunk 3 [.insert ⟨⟨4, 2⟩, 100, some ⟨2, 2⟩, .R, false⟩]),
    .control (.catchupEnd 3), .control (.alreadyHave []), .gate 6, .gate 6, .gate 7]

theorem base_closed_reconnects : Run.Each (step fun _ => false) Untangled init reconnects ∧
    Run.Always (step fun _ => false) BaseClosed init reconnects := by
  have each : Run.Each (step fun _ => false) Untangled init reconnects := by decide +kernel
  exact ⟨each, base_closed _ _ each⟩

/-- The client types, and another replica's insert after it arrives before its acknowledgement. -/
def overtakes : List ClientEvent := joined ++
  [.edit (.localInsert 0 97 none) 2,
    .ops (.ops 2 [.insert ⟨⟨2, 2⟩, 98, some ⟨1, 1⟩, .R, false⟩])]

/-- The base omits the client's own insert and keeps the node below it. -/
theorem base_unclosed : ¬ ∀ events, Run.Always (step fun _ => false) BaseClosed init events := by
  intro always
  obtain ⟨s, ran, checked⟩ := Run.exists_of_ends
    (Run.run (step fun _ => false) init overtakes)
    (fun s => decide (∃ n ∈ s.client.cleanBase, ∃ p ∈ n.parent.toList,
      ∀ m ∈ s.client.cleanBase, m.id ≠ p)) (by decide +kernel)
  obtain ⟨n, inside, p, under, missing⟩ := of_decide_eq_true checked
  obtain ⟨m, there, same⟩ := (Run.Always.last (always overtakes) ran).closed n inside p
    (Option.mem_toList.mp under)
  exact missing m there same

end Informed

end ConfluenceEditor
