/-
The coordinator of one document and the write path.

A message that has passed the checks is applied to the engine; what became ready by it, its own
operations or earlier ones that were waiting, is numbered, relayed to the other sessions and handed
to the commit queue in one synchronous stretch. A message whose operations were all ready goes out
as one batch, otherwise every operation is finalized on its own (`processIncomingOperation`).
`warmStart` rebuilds the coordinator from the store.
-/

import ConfluenceEditor.Library.Throwing
import ConfluenceEditor.Replication.Rebuild
import ConfluenceEditor.Server.CommitQueue

namespace ConfluenceEditor

open Engine

def serverReplicaId : Nat := 0

structure Coordinator where
  engine : Engine
  queue : CommitQueue
  pendingOpOrigin : Identifier → Option Nat

/-- A frame of operations with the number of the first one, sent to every session but `origin`. -/
structure Relay where
  origin : Nat
  seq : Nat
  ops : List Operation
  deriving DecidableEq, Repr

/-- An operation that a restart replays, with its context for garbage collection. -/
def OperationRow.replayed (row : OperationRow) : Operation × Option DeleteContext :=
  (row.op, some ⟨row.seq, row.committedAtMs⟩)

namespace Coordinator

/-- Seed the engine from the newest snapshot and replay the operations after it. -/
def warmStart (s : Store) : Except String Coordinator := do
  let result := s.warmStart
  let e := Engine.new serverReplicaId
  let e ← match result.snapshotNodes with
    | some nodes => e.replaySnapshotNodesInto nodes
    | none => .ok e
  let e ← e.applyEach (result.suffixOps.map OperationRow.replayed)
  if e.pending.length ≠ 0 then
    .error ("DocumentCoordinator.warmStart: " ++ toString e.pending.length ++
      " operation(s) never became ready after seeding" ++
      (match result.snapshotNodes with
        | some nodes => " from a " ++ toString nodes.length ++ "-node snapshot and"
        | none => "") ++
      " replaying " ++ toString result.suffixOps.length ++ " suffix operation(s) for document " ++
      s.documentId ++ " — the log is missing a causal dependency")
  else .ok ⟨e, CommitQueue.resume s, fun _ => none⟩

/-- The queue goes on from what the log has. -/
theorem warmStart_queue {s : Store} {c : Coordinator} (started : warmStart s = .ok c) :
    c.queue = .resume s := by
  unfold warmStart at started
  simp only at started
  split at started
  all_goals
    obtain ⟨seeded, -, started⟩ := Throwing.ok_of_bind started
    obtain ⟨replayed, -, started⟩ := Throwing.ok_of_bind started
    split_ifs at started
    obtain rfl := Except.ok.inj started
    rfl

/-! ### One message -/

/-- Apply the operations of a message; each with whether it was buffered. -/
def applyMessage (e : Engine) : List Operation → Except String (List (Operation × Bool) × Engine)
  | [] => .ok ([], e)
  | op :: ops => do
      let (buffered, e) ← e.applyRemote op none
      let (results, e) ← applyMessage e ops
      .ok ((op, buffered) :: results, e)

/-- One entry of a map that is keyed by identifiers: a known key keeps its place. -/
def setById (entries : List Operation) (op : Operation) : List Operation :=
  if entries.any fun x => x.id = op.id then
    entries.map fun x => if x.id = op.id then op else x
  else entries ++ [op]

/-- The operations that left the buffer. -/
def sideEffectResolved (before after : List Operation) : List Operation :=
  (before.foldl setById []).filter fun op => !after.any fun x => x.id = op.id

def recordOrigins (origins : Identifier → Option Nat) (session : Nat)
    (results : List (Operation × Bool)) : Identifier → Option Nat :=
  results.foldl (fun origins r =>
    if r.2 then Function.update origins r.1.id (some session) else origins) origins

def dropOrigins (origins : Identifier → Option Nat) (resolved : List Operation) :
    Identifier → Option Nat :=
  resolved.foldl (fun origins op => Function.update origins op.id none) origins

def setDeleteContexts (e : Engine) (seq atMs : Nat) : List Operation → Engine
  | [] => e
  | .delete op :: ops => setDeleteContexts (e.setDeleteContext op.id ⟨seq, atMs⟩) (seq + 1) atMs ops
  | _ :: ops => setDeleteContexts e (seq + 1) atMs ops

/-- Number, relay and enqueue each batch. -/
def finalize (nowMs : Nat) : Coordinator → List (Nat × List Operation) → Coordinator × List Relay
  | c, [] => (c, [])
  | c, (origin, ops) :: batches =>
      let startSeq := c.queue.currentSeq + 1
      let c := { c with
        engine := setDeleteContexts c.engine startSeq nowMs ops
        queue := c.queue.enqueueCommit origin ops }
      let (c, relays) := finalize nowMs c batches
      (c, ⟨origin, startSeq, ops⟩ :: relays)

/-- What is finalized one by one: the operations that were not buffered, then the resolved ones
whose origin is known. -/
def toFinalize (origins : Identifier → Option Nat) (session : Nat)
    (results : List (Operation × Bool)) (resolved : List Operation) :
    List (Nat × List Operation) :=
  (results.filter fun r => !r.2).map (fun r => (session, [r.1])) ++
    resolved.filterMap fun op => (origins op.id).map fun origin => (origin, [op])

def processIncomingOperation (c : Coordinator) (session : Nat) (ops : List Operation)
    (nowMs : Nat) : Except String (Coordinator × List Relay) :=
  if ops = [] then .ok (c, [])
  else do
    let (results, e) ← applyMessage c.engine ops
    let origins := recordOrigins c.pendingOpOrigin session results
    let resolved := sideEffectResolved c.engine.pending e.pending
    if (results.all fun r => !r.2) && resolved.isEmpty then
      .ok (finalize nowMs { c with engine := e, pendingOpOrigin := origins } [(session, ops)])
    else
      .ok (finalize nowMs { c with engine := e, pendingOpOrigin := dropOrigins origins resolved }
        (toFinalize origins session results resolved))

/-! ### What a message does -/

theorem applyMessage_cons {e e' : Engine} {op : Operation} {ops : List Operation}
    {results : List (Operation × Bool)} (applied : applyMessage e (op :: ops) = .ok (results, e')) :
    ∃ buffered e₁ rest, e.applyRemote op none = .ok (buffered, e₁) ∧
      applyMessage e₁ ops = .ok (rest, e') ∧ results = (op, buffered) :: rest := by
  obtain ⟨⟨buffered, e₁⟩, first, applied⟩ := Throwing.ok_of_bind applied
  obtain ⟨⟨rest, e₂⟩, later, applied⟩ := Throwing.ok_of_bind applied
  obtain ⟨rfl, rfl⟩ := Prod.mk.inj (Except.ok.inj applied)
  exact ⟨buffered, e₁, rest, first, later, rfl⟩

theorem applyMessage_ops {e e' : Engine} {ops : List Operation} {results : List (Operation × Bool)}
    (applied : applyMessage e ops = .ok (results, e')) : results.map Prod.fst = ops := by
  induction ops generalizing e results with
  | nil =>
      obtain ⟨rfl, rfl⟩ := by simpa [applyMessage] using applied
      rfl
  | cons op ops ih =>
      obtain ⟨buffered, e₁, rest, -, later, rfl⟩ := applyMessage_cons applied
      exact congrArg (op :: ·) (ih later)

/-- An operation that is ready or a duplicate is not buffered. -/
theorem unbuffered_of_found {e e' : Engine} {op : Operation} {buffered : Bool}
    (found : e.hasApplied op.id = true ∨ e.ready op = true)
    (applied : e.applyRemote op none = .ok (buffered, e')) : buffered = false := by
  rw [applyRemote, Built.recordContext_none] at applied
  by_cases known : e.hasApplied op.id = true
  · rw [if_pos known] at applied
    exact (Prod.mk.inj (Except.ok.inj applied)).1.symm
  · rw [if_neg known, if_pos (found.resolve_left known)] at applied
    obtain ⟨e₁, -, applied⟩ := Throwing.ok_of_bind applied
    obtain ⟨e₂, -, applied⟩ := Throwing.ok_of_bind applied
    exact (Prod.mk.inj (Except.ok.inj applied)).1.symm

theorem setDeleteContexts_eq (e : Engine) (seq atMs : Nat) (ops : List Operation) :
    ∃ contexts, setDeleteContexts e seq atMs ops = { e with deleteContext := contexts } := by
  induction ops generalizing e seq with
  | nil => exact ⟨e.deleteContext, rfl⟩
  | cons op ops ih =>
      cases op with
      | insert op => exact ih e (seq + 1)
      | undelete op => exact ih e (seq + 1)
      | delete op =>
          obtain ⟨contexts, same⟩ := ih (e.setDeleteContext op.id ⟨seq, atMs⟩) (seq + 1)
          exact ⟨contexts, same⟩

theorem finalize_eq (nowMs : Nat) (c : Coordinator) (batches : List (Nat × List Operation)) :
    ∃ contexts, (finalize nowMs c batches).1 = { c with
      engine := { c.engine with deleteContext := contexts }
      queue := c.queue.enqueueAll batches } := by
  induction batches generalizing c with
  | nil => exact ⟨c.engine.deleteContext, rfl⟩
  | cons batch batches ih =>
      obtain ⟨origin, ops⟩ := batch
      obtain ⟨contexts, same⟩ :=
        setDeleteContexts_eq c.engine (c.queue.currentSeq + 1) nowMs ops
      obtain ⟨contexts', rest⟩ := ih { c with
        engine := { c.engine with deleteContext := contexts }
        queue := c.queue.enqueueCommit origin ops }
      refine ⟨contexts', ?_⟩
      rw [finalize, same]
      exact rest

/-- The relays take consecutive numbers, from the one after `seq` up to `seq'`. -/
def Numbered : Nat → List Relay → Nat → Prop
  | seq, [], seq' => seq = seq'
  | seq, relay :: relays, seq' =>
      relay.seq = seq + 1 ∧ Numbered (seq + relay.ops.length) relays seq'

theorem Numbered.append {seq seq' seq'' : Nat} {relays relays' : List Relay}
    (first : Numbered seq relays seq') (second : Numbered seq' relays' seq'') :
    Numbered seq (relays ++ relays') seq'' := by
  induction relays generalizing seq with
  | nil =>
      obtain rfl : seq = seq' := first
      exact second
  | cons relay relays ih => exact ⟨first.1, ih first.2⟩

/-- Each batch is relayed as a whole, under the next numbers. -/
theorem finalize_relays (nowMs : Nat) (c : Coordinator) (batches : List (Nat × List Operation)) :
    (finalize nowMs c batches).2.map (fun r => (r.origin, r.ops)) = batches ∧
      Numbered c.queue.currentSeq (finalize nowMs c batches).2
        (finalize nowMs c batches).1.queue.currentSeq := by
  induction batches generalizing c with
  | nil => exact ⟨rfl, rfl⟩
  | cons batch batches ih =>
      obtain ⟨origin, ops⟩ := batch
      obtain ⟨relayed, numbered⟩ := ih { c with
        engine := setDeleteContexts c.engine (c.queue.currentSeq + 1) nowMs ops
        queue := c.queue.enqueueCommit origin ops }
      exact ⟨congrArg ((origin, ops) :: ·) relayed, rfl, numbered⟩

/-- The batches that are finalized are enqueued and relayed, under the next numbers. -/
theorem relays_of_finalize {nowMs : Nat} (c : Coordinator) {c' : Coordinator}
    {batches : List (Nat × List Operation)} {relays : List Relay}
    (nonempty : ∀ batch ∈ batches, batch.2 ≠ [])
    (finalized : finalize nowMs c batches = (c', relays)) :
    c'.queue = c.queue.enqueueAll (relays.map fun f => (f.origin, f.ops)) ∧
      Numbered c.queue.currentSeq relays c'.queue.currentSeq ∧ ∀ f ∈ relays, f.ops ≠ [] := by
  obtain ⟨contexts, queue⟩ := finalize_eq nowMs c batches
  obtain ⟨sent, numbered⟩ := finalize_relays nowMs c batches
  rw [finalized] at queue sent numbered
  refine ⟨?_, numbered, fun f member => nonempty (f.origin, f.ops) ?_⟩
  · rw [sent]
    exact congrArg Coordinator.queue queue
  · rw [← sent]
    exact List.mem_map_of_mem (f := fun f : Relay => (f.origin, f.ops)) member

/-- The commits that a message enqueues are those of its frames. -/
theorem commits_enqueueAll {q : CommitQueue} {relays : List Relay} {seq' : Nat}
    (numbered : Numbered q.currentSeq relays seq') :
    ∃ new, (q.enqueueAll (relays.map fun f => (f.origin, f.ops))).commits = q.commits ++ new ∧
      (∀ c ∈ new, c.phase = .queued) ∧
      new.map (fun c => (c.origin, c.startSeq, c.ops)) =
        relays.map fun f => (f.origin, f.seq, f.ops) := by
  induction relays generalizing q with
  | nil => exact ⟨[], (List.append_nil _).symm, nofun, rfl⟩
  | cons relay relays ih =>
      obtain ⟨first, rest⟩ := numbered
      obtain ⟨new, commits, queued, same⟩ := ih (q := q.enqueueCommit relay.origin relay.ops) rest
      refine ⟨⟨q.currentSeq + 1, relay.ops, relay.origin, .queued⟩ :: new, ?_, fun c member => ?_, ?_⟩
      · exact commits.trans (List.append_assoc ..)
      · rcases List.mem_cons.mp member with rfl | later
        · rfl
        · exact queued c later
      · rw [List.map_cons, List.map_cons, same, first]

/-- The commits of a message are those of its frames, and no frame is empty. -/
theorem processIncomingOperation_relays {c c' : Coordinator} {session nowMs : Nat}
    {ops : List Operation} {relays : List Relay}
    (processed : processIncomingOperation c session ops nowMs = .ok (c', relays)) :
    c'.queue = c.queue.enqueueAll (relays.map fun f => (f.origin, f.ops)) ∧
      Numbered c.queue.currentSeq relays c'.queue.currentSeq ∧ ∀ f ∈ relays, f.ops ≠ [] := by
  unfold processIncomingOperation at processed
  split_ifs at processed with nothing
  · obtain ⟨rfl, rfl⟩ := Prod.mk.inj (Except.ok.inj processed)
    exact ⟨rfl, rfl, nofun⟩
  · obtain ⟨⟨results, e⟩, -, done⟩ := Throwing.ok_of_bind processed
    simp only at done
    split_ifs at done
    · refine relays_of_finalize { c with
        engine := e, pendingOpOrigin := recordOrigins c.pendingOpOrigin session results }
        (fun batch member => ?_) (Except.ok.inj done)
      rw [List.mem_singleton.mp member]
      exact nothing
    · refine relays_of_finalize { c with
        engine := e
        pendingOpOrigin := dropOrigins (recordOrigins c.pendingOpOrigin session results)
          (sideEffectResolved c.engine.pending e.pending) }
        (fun batch member => ?_) (Except.ok.inj done)
      rcases List.mem_append.mp member with own | resolved
      · obtain ⟨r, -, rfl⟩ := List.mem_map.mp own
        exact List.cons_ne_nil _ _
      · obtain ⟨op, -, named⟩ := List.mem_filterMap.mp resolved
        obtain ⟨origin, -, rfl⟩ := Option.map_eq_some_iff.mp named
        exact List.cons_ne_nil _ _

/-- A message only enqueues: whatever is finalized, in batches that are not empty. -/
theorem processIncomingOperation_queue {c c' : Coordinator} {session nowMs : Nat}
    {ops : List Operation} {relays : List Relay}
    (processed : processIncomingOperation c session ops nowMs = .ok (c', relays)) :
    ∃ batches, c'.queue = c.queue.enqueueAll batches ∧ ∀ batch ∈ batches, batch.2 ≠ [] := by
  obtain ⟨queue, -, nonempty⟩ := processIncomingOperation_relays processed
  refine ⟨_, queue, fun batch member => ?_⟩
  obtain ⟨f, inside, rfl⟩ := List.mem_map.mp member
  exact nonempty f inside

theorem mem_setById {entries : List Operation} {op x : Operation} (member : x ∈ setById entries op) :
    x ∈ entries ∨ x = op := by
  unfold setById at member
  split_ifs at member
  · obtain ⟨y, inside, rfl⟩ := List.mem_map.mp member
    split_ifs
    · exact Or.inr rfl
    · exact Or.inl inside
  · simpa using member

theorem mem_sideEffectResolved {before after : List Operation} {op : Operation}
    (member : op ∈ sideEffectResolved before after) : op ∈ before ∧ op ∉ after := by
  obtain ⟨inside, gone⟩ := List.mem_filter.mp member
  constructor
  · have known : ∀ (ops entries : List Operation), op ∈ ops.foldl setById entries →
        op ∈ entries ∨ op ∈ ops := by
      intro ops
      induction ops with
      | nil => exact fun entries member => Or.inl member
      | cons x ops ih =>
          intro entries member
          rcases ih _ member with old | later
          · rcases mem_setById old with old | rfl
            · exact Or.inl old
            · exact Or.inr List.mem_cons_self
          · exact Or.inr (List.mem_cons_of_mem _ later)
    exact (known before [] inside).resolve_left (by simp)
  · intro still
    have found : (after.any fun x => x.id = op.id) = true :=
      List.any_eq_true.mpr ⟨op, still, by simp⟩
    rw [found] at gone
    cases gone

variable {e : Engine} {history : List Operation}

/-- Applying a message offers its operations; what was not buffered is applied. -/
theorem applyMessage_spec (built : Built e history) (ops : List Operation) :
    ∃ results e' applied, applyMessage e ops = .ok (results, e') ∧
      Absorbed e e' history applied (e.pending ++ ops) ∧ results.map Prod.fst = ops ∧
      ∀ r ∈ results, r.2 = false → e'.hasApplied r.1.id = true := by
  induction ops generalizing e history with
  | nil =>
      exact ⟨[], e, [], rfl, .refl built, rfl, nofun⟩
  | cons op ops ih =>
      obtain ⟨buffered, e₁, applied₁, delivered, absorbed₁, -, ready⟩ :=
        built.applyRemote_spec op none
      obtain ⟨results, e₂, applied₂, rest, absorbed₂, same, finalized⟩ := ih absorbed₁.built
      refine ⟨(op, buffered) :: results, e₂, applied₁ ++ applied₂,
        by simp [applyMessage, delivered, rest, bind, Except.bind], ?_, by simp [same],
        fun r member applied => ?_⟩
      · rw [List.append_cons]
        exact absorbed₁.trans absorbed₂
      · rcases List.mem_cons.mp member with rfl | later
        · exact absorbed₁.built.hasApplied_mono absorbed₂.built (ready applied)
        · exact finalized r later applied

/-- The state after a message: the engine has absorbed its operations, and every batch that was
finalized consists of applied operations that were offered. -/
structure Ingested (c c' : Coordinator) (history applied ops : List Operation)
    (batches : List (Nat × List Operation)) : Prop where
  absorbed : Absorbed c.engine c'.engine history applied (c.engine.pending ++ ops)
  queue : c'.queue = c.queue.enqueueAll batches
  nonempty : ∀ batch ∈ batches, batch.2 ≠ []
  offered : ∀ batch ∈ batches, ∀ op ∈ batch.2, op ∈ c.engine.pending ++ ops
  finalized : ∀ batch ∈ batches, ∀ op ∈ batch.2, c'.engine.hasApplied op.id = true

/-- Finalizing batches of applied operations. -/
theorem ingested_finalize {c c₁ : Coordinator} {applied ops : List Operation} (nowMs : Nat)
    {batches : List (Nat × List Operation)}
    (absorbed : Absorbed c.engine c₁.engine history applied (c.engine.pending ++ ops))
    (queue : c₁.queue = c.queue)
    (items : ∀ batch ∈ batches, batch.2 ≠ [] ∧ ∀ op ∈ batch.2,
      op ∈ c.engine.pending ++ ops ∧ c₁.engine.hasApplied op.id = true) :
    Ingested c (finalize nowMs c₁ batches).1 history applied ops batches := by
  obtain ⟨contexts, final⟩ := finalize_eq nowMs c₁ batches
  refine ⟨?_, ?_, fun batch member => (items batch member).1, fun batch member op inside =>
    ((items batch member).2 op inside).1, fun batch member op inside => ?_⟩
  · rw [final]
    exact absorbed.congr c.engine.deleteContext rfl rfl
  · rw [final, ← queue]
  · rw [final]
    exact ((items batch member).2 op inside).2

theorem processIncomingOperation_spec {c : Coordinator} (built : Built c.engine history)
    (session nowMs : Nat) (ops : List Operation) :
    ∃ c' relays applied batches,
      processIncomingOperation c session ops nowMs = .ok (c', relays) ∧
      Ingested c c' history applied ops batches := by
  by_cases nothing : ops = []
  · subst nothing
    exact ⟨c, [], [], [], rfl, .refl built, rfl, nofun, nofun, nofun⟩
  obtain ⟨results, e, applied, ran, absorbed, same, ready⟩ := applyMessage_spec built ops
  rw [processIncomingOperation, if_neg nothing, ran]
  simp only [bind, Except.bind]
  by_cases fast : ((results.all fun r => !r.2) &&
      (sideEffectResolved c.engine.pending e.pending).isEmpty) = true
  · rw [if_pos fast]
    rw [Bool.and_eq_true, List.all_eq_true] at fast
    set c₁ : Coordinator := { c with
      engine := e, pendingOpOrigin := recordOrigins c.pendingOpOrigin session results }
    refine ⟨(finalize nowMs c₁ [(session, ops)]).1, (finalize nowMs c₁ [(session, ops)]).2, applied,
      [(session, ops)], rfl, ingested_finalize nowMs absorbed rfl fun batch only => ?_⟩
    rw [List.mem_singleton.mp only]
    refine ⟨nothing, fun op member => ⟨List.mem_append_right _ member, ?_⟩⟩
    rw [← same] at member
    obtain ⟨r, inside, rfl⟩ := List.mem_map.mp member
    exact ready r inside (by simpa using fast.1 r inside)
  · rw [if_neg fast]
    refine ⟨_, _, applied, toFinalize (recordOrigins c.pendingOpOrigin session results) session
      results (sideEffectResolved c.engine.pending e.pending), rfl,
      ingested_finalize nowMs absorbed rfl fun batch member => ?_⟩
    rcases List.mem_append.mp member with own | resolved
    · obtain ⟨r, inside, rfl⟩ := List.mem_map.mp own
      obtain ⟨inside, direct⟩ := List.mem_filter.mp inside
      refine ⟨List.cons_ne_nil _ _, fun op only => ?_⟩
      rw [List.mem_singleton.mp only]
      refine ⟨List.mem_append_right _ ?_, ready r inside (by simpa using direct)⟩
      rw [← same]
      exact List.mem_map_of_mem inside
    · obtain ⟨op, inside, named⟩ := List.mem_filterMap.mp resolved
      obtain ⟨origin, -, rfl⟩ := Option.map_eq_some_iff.mp named
      obtain ⟨waiting, gone⟩ := mem_sideEffectResolved inside
      refine ⟨List.cons_ne_nil _ _, fun op' only => ?_⟩
      rw [List.mem_singleton.mp only]
      exact ⟨List.mem_append_left _ waiting,
        (absorbed.complete op (List.mem_append_left _ waiting)).resolve_left gone⟩

end Coordinator

end ConfluenceEditor
