/-
The stability frontier.

A session says how far it has received its document: nothing when it joins, its number on every ping.
What it says is written to the table `sessions` without waiting for it, so a write may land at any later
time, in any order, or never. A collection cycle reads the least number among the rows of its document that
were written in the last ten minutes, and collects later, up to the number that it read.
`WatchedGc` is the machine beside a log of the writes that landed. The table is a summary of the log
(`Summarized`), so a cycle collects exactly what every session that was heard from in the ten minutes before
the reading has acknowledged, whatever lands, fails, joins or is applied meanwhile (`cycle_exact`).
-/

import ConfluenceEditor.Replication.Collection
import ConfluenceEditor.Library.Keyed

namespace ConfluenceEditor

/-! ### The tables -/

/-- A row of `sessions`. -/
structure WatermarkRow where
  id : Nat
  documentId : String
  replicaId : Nat
  lastAckSeq : Nat
  lastSeenAt : Nat
  deriving DecidableEq, Repr

structure SessionHeartbeatInput where
  sessionId : Nat
  documentId : String
  replicaId : Nat
  lastAckSeq : Nat
  deriving DecidableEq, Repr

/-- The rows of `sessions`, and `current_seq` of the documents that have a row. -/
structure SessionTables where
  sessions : Keyed WatermarkRow.id
  currentSeq : String → Option Nat

/-- The ten minutes of the frontier query. -/
def SESSION_INACTIVE_MS : Nat := 10 * 60 * 1000

namespace SessionTables

/-- The constraint `sessions_replica_uq` refuses a new row with this replica id. -/
def replicaTaken (t : SessionTables) (documentId : String) (replicaId : Nat) : Bool :=
  t.sessions.entries.any fun row =>
    decide (row.documentId = documentId) && decide (row.replicaId = replicaId)

/-- `none` when the statement fails. -/
def upsertSessionHeartbeat (t : SessionTables) (nowMs : Nat) (input : SessionHeartbeatInput) :
    Option SessionTables :=
  match t.sessions.get input.sessionId with
  | some row =>
      let lastAckSeq := max row.lastAckSeq input.lastAckSeq
      some { t with sessions := t.sessions.set { row with lastAckSeq, lastSeenAt := nowMs } }
  | none =>
      let row := ⟨input.sessionId, input.documentId, input.replicaId, input.lastAckSeq, nowMs⟩
      if t.replicaTaken input.documentId input.replicaId then none
      else some { t with sessions := t.sessions.set row }

/-- What the transaction of a commit does here: a session without a row gets one with the defaults of the
columns, and the document moves on to `endSeq`. -/
def commitOperations (t : SessionTables) (nowMs sessionId : Nat) (documentId : String)
    (replicaId endSeq : Nat) : Option SessionTables :=
  let reached := (t.currentSeq documentId).map fun seq => max seq endSeq
  let t := { t with currentSeq := Function.update t.currentSeq documentId reached }
  match t.sessions.get sessionId with
  | some _ => some t
  | none =>
      if t.replicaTaken documentId replicaId then none
      else some { t with sessions := t.sessions.set ⟨sessionId, documentId, replicaId, 0, nowMs⟩ }

/-- `MIN(last_ack_seq)` over the active rows, else the document's `current_seq`. -/
def getStabilityFrontier (t : SessionTables) (documentId : String) (nowMs : Nat) : Except String Nat :=
  let active := t.sessions.entries.filter fun row =>
    decide (row.documentId = documentId) && decide (nowMs < row.lastSeenAt + SESSION_INACTIVE_MS)
  match (active.map WatermarkRow.lastAckSeq).min? with
  | some frontier => .ok frontier
  | none =>
      match t.currentSeq documentId with
      | some seq => .ok seq
      | none => .error "Cannot convert null to a BigInt"

end SessionTables

/-! ### The server -/

/-- `runOneDocument` between its query and its collection. -/
structure GcCycle where
  documentId : String
  frontier : Nat
  deriving DecidableEq, Repr

structure GcServer where
  tables : SessionTables
  /-- The heartbeats whose write has started and is not finished. -/
  heartbeats : List SessionHeartbeatInput
  cycles : List GcCycle
  /-- The live engines of the open documents. -/
  engines : String → Option Engine

inductive GcEvent where
  | opens (documentId : String) (replicaId : Nat)
  | hello (sessionId : Nat) (documentId : String) (replicaId : Nat)
  | ping (sessionId : Nat) (documentId : String) (replicaId lastAppliedSeq : Nat)
  | heartbeatLands (k nowMs : Nat)
  | heartbeatFails (k : Nat)
  | commit (nowMs sessionId : Nat) (documentId : String) (replicaId endSeq : Nat)
  | call (documentId : String) (c : Engine.Call)
  | readFrontier (documentId : String) (nowMs : Nat)
  | collect (k : Nat) (options : CollectOptions)
  | restart

def Engine.Call.isCollect : Engine.Call → Bool
  | collect _ _ => true
  | _ => false

namespace GcServer

def init : GcServer := ⟨⟨.empty, fun _ => none⟩, [], [], fun _ => none⟩

/-- A heartbeat is written without waiting for it. -/
def heartbeat (s : GcServer) (input : SessionHeartbeatInput) : GcServer :=
  { s with heartbeats := s.heartbeats ++ [input] }

def step (s : GcServer) : GcEvent → Except String GcServer
  | .opens documentId replicaId =>
      -- a warm start provisions the document's row, and goes on with calls of the engine
      let seq := (s.tables.currentSeq documentId).getD 0
      let currentSeq := Function.update s.tables.currentSeq documentId (some seq)
      if (s.engines documentId).isSome then .error "the document is open"
      else .ok { s with
        engines := Function.update s.engines documentId (some (.new replicaId))
        tables := { s.tables with currentSeq } }
  | .hello sessionId documentId replicaId => .ok (s.heartbeat ⟨sessionId, documentId, replicaId, 0⟩)
  | .ping sessionId documentId replicaId lastAppliedSeq =>
      .ok (s.heartbeat ⟨sessionId, documentId, replicaId, lastAppliedSeq⟩)
  | .heartbeatLands k nowMs =>
      match s.heartbeats[k]? with
      | some input =>
          -- a statement that fails is logged and forgotten
          .ok { s with
            tables := (s.tables.upsertSessionHeartbeat nowMs input).getD s.tables
            heartbeats := s.heartbeats.eraseIdx k }
      | none => .error "no such heartbeat"
  | .heartbeatFails k => .ok { s with heartbeats := s.heartbeats.eraseIdx k }
  | .commit nowMs sessionId documentId replicaId endSeq =>
      match s.tables.commitOperations nowMs sessionId documentId replicaId endSeq with
      | some tables => .ok { s with tables }
      | none => .error "duplicate key value violates unique constraint \"sessions_replica_uq\""
  | .call documentId c =>
      match s.engines documentId with
      | some e =>
          if c.isCollect then .error "only a cycle collects"
          else do
            let e ← e.call c
            .ok { s with engines := Function.update s.engines documentId (some e) }
      | none => .error "the document is not open"
  | .readFrontier documentId nowMs => do
      let frontier ← s.tables.getStabilityFrontier documentId nowMs
      .ok { s with cycles := s.cycles ++ [⟨documentId, frontier⟩] }
  | .collect k options =>
      match s.cycles[k]? with
      | some cycle =>
          match s.engines cycle.documentId with
          | some e => do
              let (_, e) ← e.collect cycle.frontier options
              .ok { s with
                cycles := s.cycles.eraseIdx k
                engines := Function.update s.engines cycle.documentId (some e) }
          | none => .error "the document is not open"
      | none => .error "no such cycle"
  | .restart => .ok { s with cycles := [], engines := fun _ => none }

end GcServer

/-! ### What landed -/

/-- A write to `sessions` that landed: what the session acknowledged, and when. -/
structure Heard where
  sessionId : Nat
  documentId : String
  replicaId : Nat
  lastAckSeq : Nat
  atMs : Nat
  deriving DecidableEq, Repr

/-- What was known when a cycle read the frontier. -/
structure Reading where
  heard : List Heard
  nowMs : Nat
  currentSeq : Option Nat

/-- The server beside the writes that landed, in their order, and the reading of each cycle. -/
structure WatchedGc where
  server : GcServer
  heard : List Heard
  readings : List Reading

def heardFrom (heard : List Heard) (sessionId : Nat) : List Heard :=
  heard.filter fun h => h.sessionId = sessionId

/-- The furthest that was acknowledged. -/
def watermark (own : List Heard) : Nat := own.foldl (fun furthest h => max furthest h.lastAckSeq) 0

namespace WatchedGc

def init : WatchedGc := ⟨.init, [], []⟩

/-- The write that lands in a step, if one does. -/
def landed (s : GcServer) : GcEvent → List Heard
  | .heartbeatLands k nowMs =>
      match s.heartbeats[k]? with
      | some i =>
          if (s.tables.upsertSessionHeartbeat nowMs i).isSome then
            [⟨i.sessionId, i.documentId, i.replicaId, i.lastAckSeq, nowMs⟩]
          else []
      | none => []
  | .commit nowMs sessionId documentId replicaId _ =>
      if (s.tables.sessions.get sessionId).isSome then []
      else [⟨sessionId, documentId, replicaId, 0, nowMs⟩]
  | _ => []

def readingsAfter (s : WatchedGc) : GcEvent → List Reading
  | .readFrontier documentId nowMs =>
      s.readings ++ [⟨s.heard, nowMs, s.server.tables.currentSeq documentId⟩]
  | .collect k _ => s.readings.eraseIdx k
  | .restart => []
  | _ => s.readings

def step (s : WatchedGc) (event : GcEvent) : Except String WatchedGc := do
  let server ← s.server.step event
  .ok ⟨server, s.heard ++ landed s.server event, s.readingsAfter event⟩

end WatchedGc

/-- One more write of a session. -/
def Heard.absorb : Option WatermarkRow → Heard → Option WatermarkRow
  | none, h => some ⟨h.sessionId, h.documentId, h.replicaId, h.lastAckSeq, h.atMs⟩
  | some row, h =>
      some { row with lastAckSeq := max row.lastAckSeq h.lastAckSeq, lastSeenAt := h.atMs }

/-- The row that the writes of a session add up to. -/
def rowOf (own : List Heard) : Option WatermarkRow := own.foldl Heard.absorb none

theorem heardFrom_append (heard : List Heard) (h : Heard) (sessionId : Nat) :
    heardFrom (heard ++ [h]) sessionId =
      if h.sessionId = sessionId then heardFrom heard sessionId ++ [h] else heardFrom heard sessionId := by
  unfold heardFrom
  rw [List.filter_append, List.filter_singleton]
  split_ifs with own
  · rw [decide_eq_true own]
    rfl
  · rw [decide_eq_false own]
    exact List.append_nil _

theorem rowOf_append (own : List Heard) (h : Heard) :
    rowOf (own ++ [h]) = Heard.absorb (rowOf own) h := by
  unfold rowOf
  rw [List.foldl_append, List.foldl_cons, List.foldl_nil]

theorem watermark_append (own : List Heard) (h : Heard) :
    watermark (own ++ [h]) = max (watermark own) h.lastAckSeq := by
  unfold watermark
  rw [List.foldl_append, List.foldl_cons, List.foldl_nil]

theorem rowOf_eq_none {own : List Heard} : rowOf own = none ↔ own = [] := by
  induction own using List.reverseRecOn with
  | nil => exact ⟨fun _ => rfl, fun _ => rfl⟩
  | append_singleton before h _ =>
      rw [rowOf_append]
      refine ⟨fun none => ?_, fun empty => absurd empty (by simp)⟩
      cases summed : rowOf before with
      | none => rw [summed] at none; cases none
      | some row => rw [summed] at none; cases none

/-- The row has the document of the first write, the furthest number of all and the time of the last. -/
theorem rowOf_eq_some {own : List Heard} {row : WatermarkRow} (summed : rowOf own = some row) :
    (∃ first, own.head? = some first ∧ first.documentId = row.documentId) ∧
      row.lastAckSeq = watermark own ∧
      ∃ last, own.getLast? = some last ∧ last.atMs = row.lastSeenAt := by
  induction own using List.reverseRecOn generalizing row with
  | nil => cases summed
  | append_singleton own h ih =>
      rw [rowOf_append] at summed
      rw [watermark_append, List.getLast?_concat]
      cases before : rowOf own with
      | none =>
          rw [before] at summed
          obtain rfl := Option.some_inj.mp summed
          rw [rowOf_eq_none.mp before]
          exact ⟨⟨h, rfl, rfl⟩, (Nat.zero_max _).symm, h, rfl, rfl⟩
      | some old =>
          rw [before] at summed
          obtain rfl := Option.some_inj.mp summed
          obtain ⟨⟨first, head, document⟩, furthest, -⟩ := ih before
          refine ⟨⟨first, ?_, document⟩, ?_, h, rfl, rfl⟩
          · rw [List.head?_append, head, Option.some_or]
          · rw [← furthest]

namespace SessionTables

variable {t t' : SessionTables}

/-- A heartbeat that lands is absorbed by the session's row. -/
theorem upsertSessionHeartbeat_get {nowMs : Nat} {i : SessionHeartbeatInput}
    (landed : t.upsertSessionHeartbeat nowMs i = some t') (sessionId : Nat) :
    t'.sessions.get sessionId = if i.sessionId = sessionId then
      Heard.absorb (t.sessions.get sessionId)
        ⟨i.sessionId, i.documentId, i.replicaId, i.lastAckSeq, nowMs⟩
    else t.sessions.get sessionId := by
  unfold upsertSessionHeartbeat at landed
  cases found : t.sessions.get i.sessionId with
  | some row =>
      rw [found] at landed
      obtain rfl := Option.some_inj.mp landed
      have named : row.id = i.sessionId := (Keyed.get_eq_some.mp found).2
      rw [← named] at found
      rw [Keyed.get_set, ← named]
      show (if row.id = sessionId then _ else _) = _
      split_ifs with own
      · rw [← own, found]
        rfl
      · rfl
  | none =>
      rw [found] at landed
      split_ifs at landed
      obtain rfl := Option.some_inj.mp landed
      rw [Keyed.get_set]
      show (if i.sessionId = sessionId then _ else _) = _
      split_ifs with own
      · rw [← own, found]
        rfl
      · rfl

/-- A commit writes a row for a session that has none, and else does not touch the rows. -/
theorem commitOperations_get {nowMs sessionId : Nat} {documentId : String} {replicaId endSeq : Nat}
    (done : t.commitOperations nowMs sessionId documentId replicaId endSeq = some t') (id : Nat) :
    t'.sessions.get id = if (t.sessions.get sessionId).isSome = false ∧ sessionId = id then
      Heard.absorb (t.sessions.get id) ⟨sessionId, documentId, replicaId, 0, nowMs⟩
    else t.sessions.get id := by
  unfold commitOperations at done
  cases found : t.sessions.get sessionId with
  | some row =>
      simp only [found] at done
      obtain rfl := Option.some_inj.mp done
      rw [if_neg (by simp)]
  | none =>
      simp only [found] at done
      split_ifs at done
      obtain rfl := Option.some_inj.mp done
      rw [Keyed.get_set]
      show (if sessionId = id then _ else _) = _
      split_ifs with own both both
      · rw [← own, found]
        rfl
      · exact absurd ⟨rfl, own⟩ both
      · exact absurd both.2 own
      · rfl

end SessionTables

/-! ### What a cycle reads -/

namespace Reading

/-- The session was heard from in the ten minutes before the reading. -/
def Active (r : Reading) (documentId : String) (sessionId : Nat) : Prop :=
  (∃ first, (heardFrom r.heard sessionId).head? = some first ∧ first.documentId = documentId) ∧
    ∃ last, (heardFrom r.heard sessionId).getLast? = some last ∧
      r.nowMs < last.atMs + SESSION_INACTIVE_MS

/-- Every active session has acknowledged the number; without one, the document has reached it. -/
def Acknowledged (r : Reading) (documentId : String) (seq : Nat) : Prop :=
  (∀ sessionId, r.Active documentId sessionId → seq ≤ watermark (heardFrom r.heard sessionId)) ∧
    ((∀ sessionId, ¬ r.Active documentId sessionId) →
      ∃ current, r.currentSeq = some current ∧ seq ≤ current)

/-- The node and everything below it is deleted, acknowledged by every session that was active at the
reading, and past one of the undo horizons. -/
def Releases (r : Reading) (documentId : String) (e : Engine) (options : CollectOptions)
    (n : Node) : Prop :=
  ∀ m, Engine.Descends e.nodes n m → m.deleted = true ∧ ∃ deletedBy context,
    m.deletedBy = some deletedBy ∧ e.deleteContext deletedBy = some context ∧
      r.Acknowledged documentId context.seq ∧
      (options.maxAgeMs ≤ options.nowMs - context.atMs ∨
        options.maxOpsPerReplica ≤
          ((e.maxCounterByReplica deletedBy.r).getD deletedBy.c : Int) - deletedBy.c)

end Reading

/-- A row is active exactly when its session is. -/
theorem active_iff {rows : Keyed WatermarkRow.id} {heard : List Heard}
    (summary : ∀ id, rows.get id = rowOf (heardFrom heard id)) {r : Reading} (known : r.heard = heard)
    {documentId : String} {sessionId : Nat} : r.Active documentId sessionId ↔
      ∃ row ∈ rows, row.id = sessionId ∧ row.documentId = documentId ∧
        r.nowMs < row.lastSeenAt + SESSION_INACTIVE_MS := by
  unfold Reading.Active
  rw [known]
  constructor
  · rintro ⟨⟨first, head, document⟩, last, ended, recent⟩
    cases summed : rowOf (heardFrom heard sessionId) with
    | none =>
        rw [rowOf_eq_none.mp summed] at head
        cases head
    | some row =>
        obtain ⟨⟨first', head', document'⟩, -, last', ended', seen⟩ := rowOf_eq_some summed
        have ⟨member, named⟩ := Keyed.get_eq_some.mp ((summary sessionId).trans summed)
        rw [head] at head'
        rw [ended] at ended'
        cases head'
        cases ended'
        exact ⟨row, member, named, document' ▸ document, seen ▸ recent⟩
  · rintro ⟨row, member, rfl, rfl, recent⟩
    have summed := (summary row.id).symm.trans (Keyed.get_eq_some.mpr ⟨member, rfl⟩)
    obtain ⟨⟨first, head, document⟩, -, last, ended, seen⟩ := rowOf_eq_some summed
    exact ⟨⟨first, head, document⟩, last, ended, seen ▸ recent⟩

/-- The frontier is the last number that every active session has acknowledged. -/
theorem le_frontier_iff {t : SessionTables} {r : Reading} {documentId : String}
    (summary : ∀ id, t.sessions.get id = rowOf (heardFrom r.heard id))
    (current : r.currentSeq = t.currentSeq documentId) {frontier : Nat}
    (read : t.getStabilityFrontier documentId r.nowMs = .ok frontier) (seq : Nat) :
    seq ≤ frontier ↔ r.Acknowledged documentId seq := by
  unfold SessionTables.getStabilityFrontier at read
  set active := t.sessions.entries.filter fun row =>
    decide (row.documentId = documentId) && decide (r.nowMs < row.lastSeenAt + SESSION_INACTIVE_MS)
    with active_def
  have mem : ∀ row, row ∈ active ↔ row ∈ t.sessions ∧ row.documentId = documentId ∧
      r.nowMs < row.lastSeenAt + SESSION_INACTIVE_MS := by
    intro row
    rw [active_def, List.mem_filter, Bool.and_eq_true, decide_eq_true_iff, decide_eq_true_iff]
    rfl
  have acks : ∀ row ∈ active, row.lastAckSeq = watermark (heardFrom r.heard row.id) := by
    intro row member
    have summed := (summary row.id).symm.trans (Keyed.get_eq_some.mpr ⟨((mem row).mp member).1, rfl⟩)
    exact (rowOf_eq_some summed).2.1
  cases least : (active.map WatermarkRow.lastAckSeq).min? with
  | some f =>
      simp only [least] at read
      obtain rfl := Except.ok.inj read
      rw [List.le_min?_iff least]
      constructor
      · intro below
        refine ⟨fun id counts => ?_, fun none => ?_⟩
        · obtain ⟨row, inside, rfl, document, recent⟩ := (active_iff summary rfl).mp counts
          have member := (mem row).mpr ⟨inside, document, recent⟩
          rw [← acks row member]
          exact below _ (List.mem_map_of_mem member)
        · obtain ⟨row, member, -⟩ := List.mem_map.mp (List.min?_mem least)
          exact absurd ((active_iff summary rfl).mpr
            ⟨row, ((mem row).mp member).1, rfl, ((mem row).mp member).2⟩) (none row.id)
      · intro acknowledged b inside
        obtain ⟨row, member, rfl⟩ := List.mem_map.mp inside
        rw [acks row member]
        exact acknowledged.1 _ ((active_iff summary rfl).mpr
          ⟨row, ((mem row).mp member).1, rfl, ((mem row).mp member).2⟩)
  | none =>
      have idle : ∀ id, ¬ r.Active documentId id := by
        intro id counts
        obtain ⟨row, inside, rfl, document, recent⟩ := (active_iff summary rfl).mp counts
        have empty := List.map_eq_nil_iff.mp (List.min?_eq_none_iff.mp least)
        have member := (mem row).mpr ⟨inside, document, recent⟩
        rw [empty] at member
        cases member
      simp only [least] at read
      cases found : t.currentSeq documentId with
      | none =>
          rw [found] at read
          cases read
      | some c =>
          rw [found] at read
          obtain rfl := Except.ok.inj read
          unfold Reading.Acknowledged
          rw [current, found]
          exact ⟨fun below => ⟨fun id counts => absurd counts (idle id), fun _ => ⟨c, rfl, below⟩⟩,
            fun acknowledged => by
              obtain ⟨c', same, below⟩ := acknowledged.2 idle
              rwa [Option.some_inj.mp same]⟩

/-! ### Runs -/

namespace WatchedGc

/-- The rows are the summary of what landed, a cycle's frontier is that of its reading, and the engines
are reached by calls. -/
structure Summarized (s : WatchedGc) : Prop where
  rows : ∀ id, s.server.tables.sessions.get id = rowOf (heardFrom s.heard id)
  paired : s.server.cycles.length = s.readings.length
  read : ∀ (k : Nat) (cycle : GcCycle) (reading : Reading), s.server.cycles[k]? = some cycle →
    s.readings[k]? = some reading →
      ∀ seq, seq ≤ cycle.frontier ↔ reading.Acknowledged cycle.documentId seq
  engines : ∀ documentId e, s.server.engines documentId = some e → e.Reachable

theorem summarized_init : Summarized init where
  rows _ := rfl
  paired := rfl
  read k _ _ here := by simp [init, GcServer.init] at here
  engines _ _ here := by cases here

/-- A write that landed is part of the summary. -/
theorem rows_append {rows : Nat → Option WatermarkRow} {heard : List Heard}
    (summary : ∀ id, rows id = rowOf (heardFrom heard id)) (h : Heard) (id : Nat) :
    rowOf (heardFrom (heard ++ [h]) id) =
      if h.sessionId = id then Heard.absorb (rows id) h else rows id := by
  rw [heardFrom_append]
  split_ifs with own
  · rw [rowOf_append, ← summary]
  · exact (summary id).symm

variable {s s' : WatchedGc}

/-- The engine of one document is replaced by one that is reachable too. -/
theorem engines_update {engines : String → Option Engine}
    (reachable : ∀ documentId e, engines documentId = some e → e.Reachable) {documentId : String}
    {e : Engine} (here : e.Reachable) (d : String) (e' : Engine)
    (found : Function.update engines documentId (some e) d = some e') : e'.Reachable := by
  rw [Function.update_apply] at found
  split_ifs at found with same
  · exact Option.some_inj.mp found ▸ here
  · exact reachable d e' found

/-- What a cycle reads, it keeps while other cycles come and go. -/
theorem Summarized.frame (summarized : s.Summarized)
    (rows : ∀ id, s'.server.tables.sessions.get id = rowOf (heardFrom s'.heard id))
    (cycles : s'.server.cycles = s.server.cycles) (readings : s'.readings = s.readings)
    (engines : s'.server.engines = s.server.engines) : s'.Summarized where
  rows := rows
  paired := by
    rw [cycles, readings]
    exact summarized.paired
  read := by
    rw [cycles, readings]
    exact summarized.read
  engines := by
    rw [engines]
    exact summarized.engines

theorem Summarized.step (summarized : s.Summarized) {event : GcEvent}
    (stepped : s.step event = .ok s') : s'.Summarized := by
  obtain ⟨server, moved, done⟩ := Throwing.ok_of_bind stepped
  obtain rfl := Except.ok.inj done
  have rows := summarized.rows
  have unheard : ∀ id, s.server.tables.sessions.get id = rowOf (heardFrom (s.heard ++ []) id) := by
    rw [List.append_nil]
    exact rows
  cases event with
  | opens documentId replicaId =>
      simp only [GcServer.step] at moved
      split_ifs at moved
      obtain rfl := Except.ok.inj moved
      exact ⟨unheard, summarized.paired, summarized.read,
        engines_update summarized.engines ⟨replicaId, .refl _⟩⟩
  | hello sessionId documentId replicaId =>
      obtain rfl := Except.ok.inj moved
      exact summarized.frame unheard rfl rfl rfl
  | ping sessionId documentId replicaId lastAppliedSeq =>
      obtain rfl := Except.ok.inj moved
      exact summarized.frame unheard rfl rfl rfl
  | heartbeatLands k nowMs =>
      simp only [GcServer.step] at moved
      cases entry : s.server.heartbeats[k]? with
      | none => rw [entry] at moved; cases moved
      | some input =>
          rw [entry] at moved
          obtain rfl := Except.ok.inj moved
          refine summarized.frame (fun id => ?_) rfl rfl rfl
          show ((s.server.tables.upsertSessionHeartbeat nowMs input).getD _).sessions.get id =
            rowOf (heardFrom (s.heard ++ landed s.server (.heartbeatLands k nowMs)) id)
          simp only [landed, entry]
          cases written : s.server.tables.upsertSessionHeartbeat nowMs input with
          | none => exact unheard id
          | some t =>
              rw [Option.getD_some, SessionTables.upsertSessionHeartbeat_get written, Option.isSome_some,
                if_pos rfl, rows_append rows]
  | heartbeatFails k =>
      obtain rfl := Except.ok.inj moved
      exact summarized.frame unheard rfl rfl rfl
  | commit nowMs sessionId documentId replicaId endSeq =>
      simp only [GcServer.step] at moved
      cases written : s.server.tables.commitOperations nowMs sessionId documentId replicaId endSeq with
      | none => rw [written] at moved; cases moved
      | some t =>
          rw [written] at moved
          obtain rfl := Except.ok.inj moved
          refine summarized.frame (fun id => ?_) rfl rfl rfl
          show t.sessions.get id = rowOf (heardFrom (s.heard ++ landed s.server _) id)
          rw [SessionTables.commitOperations_get written]
          simp only [landed]
          cases known : (s.server.tables.sessions.get sessionId).isSome with
          | true => simpa using rows id
          | false =>
              rw [if_neg Bool.false_ne_true, rows_append rows]
              simp only [true_and]
  | call documentId c =>
      simp only [GcServer.step] at moved
      cases found : s.server.engines documentId with
      | none => rw [found] at moved; cases moved
      | some e =>
          simp only [found] at moved
          split_ifs at moved
          obtain ⟨e', called, done⟩ := Throwing.ok_of_bind moved
          obtain rfl := Except.ok.inj done
          exact ⟨unheard, summarized.paired, summarized.read,
            engines_update summarized.engines ((summarized.engines _ _ found).call called)⟩
  | readFrontier documentId nowMs =>
      obtain ⟨frontier, read, done⟩ := Throwing.ok_of_bind moved
      obtain rfl := Except.ok.inj done
      refine ⟨unheard, ?_, fun k cycle reading here there => ?_, summarized.engines⟩
      · show (s.server.cycles ++ [_]).length = (s.readings ++ [_]).length
        rw [List.length_append, List.length_append, summarized.paired]
        rfl
      · replace here : (s.server.cycles ++ [_])[k]? = some cycle := here
        replace there : (s.readings ++ [_])[k]? = some reading := there
        by_cases old : k < s.server.cycles.length
        · rw [List.getElem?_append_left old] at here
          rw [List.getElem?_append_left (summarized.paired ▸ old)] at there
          exact summarized.read k cycle reading here there
        · -- the reading of this step
          have last : k = s.server.cycles.length := by
            have := (List.getElem?_eq_some_iff.mp here).1
            rw [List.length_append, List.length_singleton] at this
            omega
          rw [last, List.getElem?_concat_length] at here
          rw [last, summarized.paired, List.getElem?_concat_length] at there
          obtain rfl := Option.some_inj.mp here
          obtain rfl := Option.some_inj.mp there
          exact le_frontier_iff (r := ⟨s.heard, nowMs, s.server.tables.currentSeq documentId⟩) rows rfl
            read
  | collect k options =>
      simp only [GcServer.step] at moved
      cases entry : s.server.cycles[k]? with
      | none => rw [entry] at moved; cases moved
      | some cycle =>
          simp only [entry] at moved
          cases found : s.server.engines cycle.documentId with
          | none => rw [found] at moved; cases moved
          | some e =>
              simp only [found] at moved
              obtain ⟨⟨result, e'⟩, collected, done⟩ := Throwing.ok_of_bind moved
              obtain rfl := Except.ok.inj done
              have reachable : e'.Reachable := by
                refine (summarized.engines _ _ found).call (c := .collect cycle.frontier options) ?_
                show (do let (_, e) ← e.collect cycle.frontier options; .ok e) = .ok e'
                rw [collected]
                rfl
              refine ⟨unheard, ?_, fun j cycle' reading here there => ?_,
                engines_update summarized.engines reachable⟩
              · show (s.server.cycles.eraseIdx k).length = (s.readings.eraseIdx k).length
                rw [List.length_eraseIdx, List.length_eraseIdx, summarized.paired]
              · replace here : (s.server.cycles.eraseIdx k)[j]? = some cycle' := here
                replace there : (s.readings.eraseIdx k)[j]? = some reading := there
                rw [List.getElem?_eraseIdx] at here there
                split_ifs at here there
                · exact summarized.read j cycle' reading here there
                · exact summarized.read (j + 1) cycle' reading here there
  | restart =>
      obtain rfl := Except.ok.inj moved
      exact ⟨unheard, rfl, fun k _ _ here => by simp at here, fun _ _ here => by cases here⟩

theorem summarized_of_reaches (reached : Run.Reaches step init s) : s.Summarized :=
  reached.invariant summarized_init fun _ _ _ summarized stepped => summarized.step stepped

/-- The collection of a cycle, at any time after its reading, returns. When its sweep runs to the end, it
takes out exactly the nodes that the reading releases, and when its budget is used up before, none. -/
theorem cycle_exact {events : List GcEvent} (ran : Run.run step init events = .ok s) {k : Nat}
    {cycle : GcCycle} {reading : Reading} {e : Engine} (running : s.server.cycles[k]? = some cycle)
    (read : s.readings[k]? = some reading) (opened : s.server.engines cycle.documentId = some e)
    (options : CollectOptions) :
    ∃ result e' s', e.collect cycle.frontier options = .ok (result, e') ∧
      s.step (.collect k options) = .ok s' ∧ s'.server.engines cycle.documentId = some e' ∧
      (result.incomplete = false → ∀ n ∈ e.nodes,
        n ∉ e'.nodes ↔ reading.Releases cycle.documentId e options n) ∧
      (result.incomplete = true → e'.nodes = e.nodes) := by
  have summarized := summarized_of_reaches ⟨events, ran⟩
  obtain ⟨result, e', collected, complete, cut, -⟩ :=
    Engine.collect_exact (summarized.engines _ _ opened) cycle.frontier options
  refine ⟨result, e', ⟨⟨s.server.tables, s.server.heartbeats, s.server.cycles.eraseIdx k,
    Function.update s.server.engines cycle.documentId (some e')⟩, s.heard ++ [],
    s.readings.eraseIdx k⟩, collected, ?_, Function.update_self .., fun whole n member => ?_,
    fun stopped => ?_⟩
  · have stepped : s.server.step (.collect k options) = .ok ⟨s.server.tables, s.server.heartbeats,
        s.server.cycles.eraseIdx k,
        Function.update s.server.engines cycle.documentId (some e')⟩ := by
      simp only [GcServer.step, running, opened, collected]
      rfl
    unfold step
    rw [stepped]
    rfl
  · rw [(complete whole).exact n, not_and_not_right]
    have known := summarized.read k cycle reading running read
    constructor
    · intro collectible m below
      obtain ⟨gone, deletedBy, context, dot, recorded, stable, old⟩ := collectible member m below
      exact ⟨gone, deletedBy, context, dot, recorded,
        (known context.seq).mp (Int.ofNat_le.mp stable), old⟩
    · intro releases _ m below
      obtain ⟨gone, deletedBy, context, dot, recorded, stable, old⟩ := releases m below
      exact ⟨gone, deletedBy, context, dot, recorded,
        Int.ofNat_le.mpr ((known context.seq).mpr stable), old⟩
  · rw [(cut stopped).1]

/-- Two characters typed and the second one deleted in the first row. One session has acknowledged that row
when the frontier is read; another joins before the collection. -/
def acknowledged : List GcEvent :=
  [.opens "notes" 1, .call "notes" (.edit (.insert 0 97 false)),
    .call "notes" (.edit (.insert 1 98 false)), .call "notes" (.edit (.delete 1 1)),
    .call "notes" (.setDeleteContext ⟨3, 1⟩ ⟨1, 0⟩), .commit 5 1 "notes" 1 1, .hello 1 "notes" 1,
    .ping 1 "notes" 1 1, .heartbeatLands 1 10, .heartbeatLands 0 20, .readFrontier "notes" 30,
    .hello 2 "notes" 2, .heartbeatLands 0 40]

theorem cycle_exact_acknowledged : ∃ s, Run.run step init acknowledged = .ok s ∧
    ∃ (reading : Reading) (e : Engine) (result : CollectResult) (e' : Engine) (s' : WatchedGc),
      s.server.engines "notes" = some e ∧
      e.collect 1 ⟨10, 5, 100, none, none⟩ = .ok (result, e') ∧
      s.step (.collect 0 ⟨10, 5, 100, none, none⟩) = .ok s' ∧
      s'.server.engines "notes" = some e' ∧
      (result.incomplete = false → ∀ n ∈ e.nodes,
        n ∉ e'.nodes ↔ reading.Releases "notes" e ⟨10, 5, 100, none, none⟩ n) ∧
      (result.incomplete = true → e'.nodes = e.nodes) := by
  obtain ⟨s, ran, checked⟩ := Run.exists_of_ends (Run.run step init acknowledged)
    (fun s => decide (s.server.cycles = [⟨"notes", 1⟩]) && decide (s.readings.length = 1) &&
      (s.server.engines "notes").isSome) (by decide +kernel)
  rw [Bool.and_eq_true, Bool.and_eq_true, decide_eq_true_iff, decide_eq_true_iff] at checked
  obtain ⟨⟨cycles, one⟩, opened⟩ := checked
  obtain ⟨e, here⟩ := Option.isSome_iff_exists.mp opened
  have running : s.server.cycles[0]? = some ⟨"notes", 1⟩ := by rw [cycles]; rfl
  obtain ⟨reading, only⟩ := List.length_eq_one_iff.mp one
  have read : s.readings[0]? = some reading := by rw [only]; rfl
  obtain ⟨result, e', s', rest⟩ := cycle_exact ran running read here ⟨10, 5, 100, none, none⟩
  exact ⟨s, ran, reading, e, result, e', s', here, rest⟩

end WatchedGc

end ConfluenceEditor
