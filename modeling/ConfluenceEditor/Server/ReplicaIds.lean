/-
Replica ids across restarts.

A session gets its replica id from a counter in the coordinator's memory, and a restarted coordinator
resumes the counter behind the largest id in the sessions table. The row of a session is written
without waiting when it joins, and again by the transaction of its first commit; both may fail or
still be on their way when the process dies. Then the next session gets an id that is taken, and
mints identifiers that are taken as well (`reused`). As long as no restart happens before the largest
id given so far, or a larger one, is in the table, replica ids and operation identifiers stay unique
(`ids_unique`).
-/

import ConfluenceEditor.Engine.Sound
import ConfluenceEditor.Server.Durability

namespace ConfluenceEditor

open Engine

structure SessionRow where
  id : Nat
  replicaId : Nat
  deriving DecidableEq, Repr

/-- Insert a row unless the session has one; another session's replica id is refused. -/
def insertSession (rows : List SessionRow) (row : SessionRow) : Option (List SessionRow) :=
  if rows.any fun r => r.id = row.id then some rows
  else if rows.any fun r => r.replicaId = row.replicaId then none
  else some (rows ++ [row])

/-- What a warm start resumes the counter with. -/
def nextReplicaIdOf (rows : List SessionRow) : Nat :=
  (rows.map SessionRow.replicaId).foldr max 0 + 1

/-- A session at its client: the engine is there once the handshake has built it. -/
structure ClientSession where
  replicaId : Nat
  engine : Option Engine

/-- One document: the server with its tables, and every session that was ever admitted, by its
number. `issued` are the operations minted so far. -/
structure Deployment where
  server : Server
  nextReplicaId : Nat
  sessionRows : List SessionRow
  /-- The rows whose write was started at admission and is not finished. -/
  heartbeats : List SessionRow
  /-- The sessions in the coordinator's memory. -/
  joined : List Nat
  sessions : List ClientSession
  issued : List Operation

inductive DeploymentEvent where
  | join
  | leave (session : Nat)
  | ping (session : Nat)
  | seed (session : Nat) (nodes : List Node)
  | edit (session : Nat) (call : LocalEdit)
  | deliver (session : Nat) (op : Operation)
  | send (session : Nat) (ops : List Operation) (nowMs : Nat)
  | heartbeatLands (k : Nat)
  | heartbeatFails (k : Nat)
  | start (i : Nat)
  | land (i : Nat) (committedAtMs : Nat)
  | succeed (i : Nat)
  | fail (i : Nat)
  | capture
  | writeSnapshot (k : Nat)
  | restart
  deriving DecidableEq, Repr

namespace Deployment

def init (documentId : String) : Deployment := ⟨Server.init documentId, 1, [], [], [], [], []⟩

def setSession (d : Deployment) (i : Nat) (e : Engine) : Deployment :=
  let changed := d.sessions.modify i fun s => { s with engine := some e }
  { d with sessions := changed }

/-- The engine of a session that has one. -/
def engineOf (d : Deployment) (i : Nat) : Except String Engine :=
  match d.sessions[i]? with
  | some ⟨_, some e⟩ => .ok e
  | _ => .error "no engine yet"

/-- The session whose operations commit `i` carries, as a row. -/
def rowOf (d : Deployment) (i : Nat) : Option SessionRow := do
  let c ← d.server.coordinator.queue.commits[i]?
  let s ← d.sessions[c.origin]?
  some ⟨c.origin, s.replicaId⟩

/-- The gateway's check of a message: the first operation carries the session's replica id. -/
def stamped (d : Deployment) (session : Nat) (ops : List Operation) : Bool :=
  match d.sessions[session]?, ops with
  | some s, op :: _ => decide (op.id.r = s.replicaId)
  | _, _ => false

def onServer (d : Deployment) (event : ServerEvent) : Except String Deployment := do
  let server ← d.server.step event
  .ok { d with server }

def step (d : Deployment) : DeploymentEvent → Except String Deployment
  | .join =>
      let replicaId := d.nextReplicaId
      let session := d.sessions.length
      .ok { d with
        nextReplicaId := replicaId + 1
        heartbeats := d.heartbeats ++ [⟨session, replicaId⟩]
        joined := d.joined ++ [session]
        sessions := d.sessions ++ [⟨replicaId, none⟩] }
  | .leave session => .ok { d with joined := d.joined.erase session }
  | .ping session =>
      match d.sessions[session]? with
      | some s =>
          if session ∈ d.joined then
            .ok { d with heartbeats := d.heartbeats ++ [⟨session, s.replicaId⟩] }
          else .error "not joined"
      | none => .error "no such session"
  | .seed i nodes =>
      match d.sessions[i]? with
      | some ⟨replicaId, none⟩ =>
          if ∀ op ∈ snapshotOps nodes, op ∈ d.issued then do
            let e ← seedEngineFromSnapshot replicaId nodes
            .ok (d.setSession i e)
          else .error "a snapshot holds issued operations"
      | _ => .error "the handshake builds one engine"
  | .edit i call => do
      let e ← d.engineOf i
      let (ops, e) ← e.edit call
      .ok { d.setSession i e with issued := d.issued ++ ops }
  | .deliver i op =>
      if op ∈ d.issued then do
        let e ← d.engineOf i
        let (_, e) ← e.applyRemote op none
        .ok (d.setSession i e)
      else .error "only issued operations are in flight"
  | .send session ops nowMs =>
      if session ∈ d.joined ∧ (∀ op ∈ ops, op ∈ d.issued) ∧ d.stamped session ops then
        d.onServer (.receive session ops nowMs)
      else .error "refused"
  | .heartbeatLands k =>
      match d.heartbeats[k]? with
      | some row =>
          -- a refused write is logged and forgotten
          .ok { d with
            sessionRows := (insertSession d.sessionRows row).getD d.sessionRows
            heartbeats := d.heartbeats.eraseIdx k }
      | none => .error "no such heartbeat"
  | .heartbeatFails k => .ok { d with heartbeats := d.heartbeats.eraseIdx k }
  | .start i => d.onServer (.start i)
  | .land i committedAtMs =>
      -- the transaction provisions the session's row first, and is rolled back if it cannot
      match (d.rowOf i).bind (insertSession d.sessionRows) with
      | some sessionRows => do
          let d ← d.onServer (.land i committedAtMs)
          .ok { d with sessionRows }
      | none => .error "duplicate key value violates unique constraint \"sessions_replica_uq\""
  | .succeed i => d.onServer (.succeed i)
  | .fail i => d.onServer (.fail i)
  | .capture => d.onServer .capture
  | .writeSnapshot k => d.onServer (.writeSnapshot k)
  | .restart => do
      let d ← d.onServer .restart
      .ok { d with nextReplicaId := nextReplicaIdOf d.sessionRows, joined := [] }

/-- No two sessions share a replica id, and no two mints an identifier. -/
structure UniqueIds (d : Deployment) : Prop where
  given : (d.sessions.map ClientSession.replicaId).Nodup
  minted : (d.issued.map Operation.id).Nodup

/-- No restart before every id given so far is covered by a row. -/
def Recorded (d : Deployment) : DeploymentEvent → Prop
  | .restart => ∀ s ∈ d.sessions, ∃ row ∈ d.sessionRows, s.replicaId ≤ row.replicaId
  | _ => True

instance (d : Deployment) (event : DeploymentEvent) : Decidable (d.Recorded event) := by
  unfold Recorded
  split <;> infer_instance

/-! ### The invariant -/

/-- Session `i` can have minted the identifier. -/
def MintedBy (d : Deployment) (id : Identifier) : Prop :=
  ∃ (i : Nat) (e : Engine), d.sessions[i]? = some ⟨id.r, some e⟩ ∧ id.c ≤ e.clock

/-- The counter is ahead of every id, every engine mints under its session's id, and every issued
identifier is behind the clock of the session that minted it. -/
structure Invariant (d : Deployment) : Prop where
  unique : d.UniqueIds
  below : ∀ s ∈ d.sessions, s.replicaId < d.nextReplicaId
  engines : ∀ s ∈ d.sessions, ∀ e, s.engine = some e → e.Sound ∧ e.replicaId = s.replicaId
  minted : ∀ op ∈ d.issued, d.MintedBy op.id

theorem invariant_init (documentId : String) : (init documentId).Invariant where
  unique := ⟨List.nodup_nil, List.nodup_nil⟩
  below s member := by simp [init] at member
  engines s member := by simp [init] at member
  minted op member := by simp [init] at member

namespace Invariant

variable {d d' : Deployment}

/-- The invariant only looks at the counter, the sessions and what was issued. -/
theorem congr (invariant : d.Invariant) (next : d'.nextReplicaId = d.nextReplicaId)
    (sessions : d'.sessions = d.sessions) (issued : d'.issued = d.issued) : d'.Invariant where
  unique := ⟨sessions ▸ invariant.unique.given, issued ▸ invariant.unique.minted⟩
  below := by
    rw [next, sessions]
    exact invariant.below
  engines := by
    rw [sessions]
    exact invariant.engines
  minted op member := by
    obtain ⟨i, e, entry, behind⟩ := invariant.minted op (issued ▸ member)
    exact ⟨i, e, sessions ▸ entry, behind⟩

/-- The counter gives the next session an id of its own. -/
theorem join (invariant : d.Invariant) {replicaId : Nat} (next : d.nextReplicaId = replicaId)
    (later : d'.nextReplicaId = replicaId + 1)
    (sessions : d'.sessions = d.sessions ++ [⟨replicaId, none⟩]) (issued : d'.issued = d.issued) :
    d'.Invariant where
  unique := by
    refine ⟨?_, issued ▸ invariant.unique.minted⟩
    rw [sessions, List.map_append, List.nodup_append]
    refine ⟨invariant.unique.given, List.nodup_singleton _, ?_⟩
    rintro a old b new rfl
    obtain ⟨s, member, rfl⟩ := List.mem_map.mp old
    have same : s.replicaId = replicaId := List.mem_singleton.mp new
    have := invariant.below s member
    omega
  below s member := by
    rw [later]
    rw [sessions] at member
    rcases List.mem_append.mp member with old | new
    · have := invariant.below s old
      omega
    · rw [List.mem_singleton.mp new]
      exact Nat.lt_succ_self _
  engines s member e holds := by
    rw [sessions] at member
    rcases List.mem_append.mp member with old | new
    · exact invariant.engines s old e holds
    · rw [List.mem_singleton.mp new] at holds
      cases holds
  minted op member := by
    obtain ⟨i, e, entry, behind⟩ := invariant.minted op (issued ▸ member)
    refine ⟨i, e, ?_, behind⟩
    rw [sessions, List.getElem?_append_left (List.getElem?_eq_some_iff.mp entry).1]
    exact entry

theorem getElem?_setSession (d : Deployment) (i j : Nat) (e : Engine) :
    (d.setSession i e).sessions[j]? =
      if i = j then d.sessions[j]?.map fun s => { s with engine := some e } else d.sessions[j]? := by
  rw [setSession, List.getElem?_modify]
  split_ifs with same
  · rfl
  · simp

theorem replicaIds_setSession (d : Deployment) (i : Nat) (e : Engine) :
    (d.setSession i e).sessions.map ClientSession.replicaId =
      d.sessions.map ClientSession.replicaId := by
  apply List.ext_getElem?
  intro j
  rw [List.getElem?_map, getElem?_setSession, List.getElem?_map]
  split_ifs with same
  · rw [Option.map_map]
    rfl
  · rfl

/-- A session's engine is replaced by one that is not behind it. -/
theorem setSession (invariant : d.Invariant) {i : Nat} {s : ClientSession} {e : Engine}
    (entry : d.sessions[i]? = some s) (sound : e.Sound) (own : e.replicaId = s.replicaId)
    (later : ∀ old, s.engine = some old → old.clock ≤ e.clock) : (d.setSession i e).Invariant where
  unique := by
    refine ⟨?_, invariant.unique.minted⟩
    rw [replicaIds_setSession]
    exact invariant.unique.given
  below s' member := by
    have id : s'.replicaId ∈ (d.setSession i e).sessions.map ClientSession.replicaId :=
      List.mem_map_of_mem member
    rw [replicaIds_setSession] at id
    obtain ⟨s₀, member₀, same⟩ := List.mem_map.mp id
    rw [← same]
    exact invariant.below s₀ member₀
  engines s' member e' holds := by
    obtain ⟨j, entry'⟩ := List.getElem?_of_mem member
    rw [getElem?_setSession] at entry'
    split_ifs at entry' with same
    · subst same
      rw [entry, Option.map_some, Option.some_inj] at entry'
      subst entry'
      obtain rfl := Option.some_inj.mp holds
      exact ⟨sound, own⟩
    · exact invariant.engines s' (List.mem_of_getElem? entry') e' holds
  minted op member := by
    obtain ⟨j, e', entry', behind⟩ := invariant.minted op member
    by_cases same : i = j
    · subst same
      obtain rfl := Option.some_inj.mp (entry.symm.trans entry')
      refine ⟨i, e, ?_, le_trans behind (later e' rfl)⟩
      rw [getElem?_setSession, if_pos rfl, entry]
      rfl
    · refine ⟨j, e', ?_, behind⟩
      rw [getElem?_setSession, if_neg same]
      exact entry'

/-- Different sessions have different replica ids. -/
theorem same_session (invariant : d.Invariant) {i j : Nat} {s t : ClientSession}
    (first : d.sessions[i]? = some s) (second : d.sessions[j]? = some t)
    (same : s.replicaId = t.replicaId) : i = j := by
  have inside : i < d.sessions.length := (List.getElem?_eq_some_iff.mp first).1
  refine (List.getElem?_inj (by rwa [List.length_map]) invariant.unique.given).mp ?_
  rw [List.getElem?_map, List.getElem?_map, first, second, Option.map_some, Option.map_some, same]

/-- What an engine mints has never been issued. -/
theorem issue (invariant : d.Invariant) {i : Nat} {r : Nat} {e e' : Engine} {ops : List Operation}
    (entry : d.sessions[i]? = some ⟨r, some e⟩) (mints : Mints e e' (ops.map Operation.id)) :
    Invariant { d.setSession i e' with issued := d.issued ++ ops } := by
  obtain ⟨-, own⟩ := invariant.engines _ (List.mem_of_getElem? entry) e rfl
  have advanced : (d.setSession i e').Invariant :=
    invariant.setSession entry mints.sound (mints.replicaId.trans own) fun old holds => by
      obtain rfl := Option.some_inj.mp holds
      exact mints.clock
  have changed : (d.setSession i e').sessions[i]? = some ⟨r, some e'⟩ := by
    rw [getElem?_setSession, if_pos rfl, entry]
    rfl
  have fresh : ∀ op ∈ ops, op.id.r = r ∧ e.clock < op.id.c ∧ op.id.c ≤ e'.clock := by
    intro op member
    have minted : op.id ∈ ops.map Operation.id := List.mem_map_of_mem member
    obtain ⟨named, ahead⟩ := mints.fresh op.id minted
    exact ⟨named.trans own, ahead, mints.sound.clock _ ((mints.applied op.id).mpr (Or.inr minted))⟩
  refine ⟨⟨advanced.unique.given, ?_⟩, advanced.below, advanced.engines, fun op member => ?_⟩
  · rw [List.map_append, List.nodup_append]
    refine ⟨invariant.unique.minted, mints.nodup, ?_⟩
    rintro id early id' late rfl
    obtain ⟨old, inOld, rfl⟩ := List.mem_map.mp early
    obtain ⟨new, inNew, same⟩ := List.mem_map.mp late
    -- an old identifier under this session's id is behind the engine's clock
    obtain ⟨j, e₁, entry₁, behind⟩ := invariant.minted old inOld
    obtain ⟨named, ahead, -⟩ := fresh new inNew
    rw [same] at named ahead
    obtain rfl := invariant.same_session entry entry₁ named.symm
    rw [entry] at entry₁
    cases entry₁
    omega
  · rcases List.mem_append.mp member with old | new
    · exact advanced.minted op old
    · obtain ⟨named, -, behind⟩ := fresh op new
      exact ⟨i, e', named ▸ changed, behind⟩

/-- A step of the server changes nothing else. -/
theorem onServer (invariant : d.Invariant) {event : ServerEvent}
    (moved : d.onServer event = .ok d') :
    d'.Invariant ∧ d'.sessions = d.sessions ∧ d'.sessionRows = d.sessionRows := by
  obtain ⟨server, -, done⟩ := Throwing.ok_of_bind moved
  obtain rfl := Except.ok.inj done
  exact ⟨invariant.congr rfl rfl rfl, rfl, rfl⟩

theorem le_foldr_max {ids : List Nat} {id : Nat} (member : id ∈ ids) : id ≤ ids.foldr max 0 := by
  induction ids with
  | nil => cases member
  | cons first ids ih =>
      rcases List.mem_cons.mp member with rfl | later
      · exact le_max_left ..
      · exact le_trans (ih later) (le_max_right ..)

/-- A covered id is behind the resumed counter. -/
theorem lt_nextReplicaIdOf {rows : List SessionRow} {row : SessionRow} (member : row ∈ rows) :
    row.replicaId < nextReplicaIdOf rows :=
  Nat.lt_succ_of_le (le_foldr_max (List.mem_map_of_mem member))

theorem engineOf_eq {i : Nat} {e : Engine} (found : d.engineOf i = .ok e) :
    ∃ r, d.sessions[i]? = some ⟨r, some e⟩ := by
  unfold engineOf at found
  split at found
  · obtain rfl := Except.ok.inj found
    exact ⟨_, by assumption⟩
  · cases found

theorem step {event : DeploymentEvent} (invariant : d.Invariant) (recorded : d.Recorded event)
    (moved : d.step event = .ok d') : d'.Invariant := by
  cases event with
  | join =>
      obtain rfl := Except.ok.inj moved
      exact invariant.join rfl rfl rfl rfl
  | leave session =>
      obtain rfl := Except.ok.inj moved
      exact invariant.congr rfl rfl rfl
  | ping session =>
      simp only [Deployment.step] at moved
      split at moved
      · split_ifs at moved
        obtain rfl := Except.ok.inj moved
        exact invariant.congr rfl rfl rfl
      · cases moved
  | seed i nodes =>
      simp only [Deployment.step] at moved
      split at moved
      · rename_i replicaId entry
        split_ifs at moved
        obtain ⟨e, seeded, done⟩ := Throwing.ok_of_bind moved
        obtain rfl := Except.ok.inj done
        have advanced := (sound_new replicaId).replaySnapshotNodesInto_spec seeded
        exact invariant.setSession entry advanced.sound advanced.replicaId nofun
      · cases moved
  | edit i call =>
      obtain ⟨e, found, rest⟩ := Throwing.ok_of_bind moved
      obtain ⟨⟨ops, e'⟩, edited, done⟩ := Throwing.ok_of_bind rest
      obtain rfl := Except.ok.inj done
      obtain ⟨r, entry⟩ := engineOf_eq found
      have sound := (invariant.engines _ (List.mem_of_getElem? entry) e rfl).1
      exact invariant.issue entry (sound.edit_spec edited)
  | deliver i op =>
      simp only [Deployment.step] at moved
      split_ifs at moved
      obtain ⟨e, found, rest⟩ := Throwing.ok_of_bind moved
      obtain ⟨⟨buffered, e'⟩, applied, done⟩ := Throwing.ok_of_bind rest
      obtain rfl := Except.ok.inj done
      obtain ⟨r, entry⟩ := engineOf_eq found
      obtain ⟨sound, own⟩ := invariant.engines _ (List.mem_of_getElem? entry) e rfl
      obtain ⟨buffered', e₁, applied', advanced, -⟩ := sound.applyRemote_spec op none
      obtain ⟨-, rfl⟩ := Prod.mk.inj (Except.ok.inj (applied'.symm.trans applied))
      exact invariant.setSession entry advanced.sound (advanced.replicaId.trans own)
        fun old holds => Option.some_inj.mp holds ▸ advanced.clock
  | send session ops nowMs =>
      simp only [Deployment.step] at moved
      split_ifs at moved
      exact (invariant.onServer moved).1
  | heartbeatLands k =>
      simp only [Deployment.step] at moved
      split at moved
      · obtain rfl := Except.ok.inj moved
        exact invariant.congr rfl rfl rfl
      · cases moved
  | heartbeatFails k =>
      obtain rfl := Except.ok.inj moved
      exact invariant.congr rfl rfl rfl
  | start i => exact (invariant.onServer moved).1
  | land i committedAtMs =>
      simp only [Deployment.step] at moved
      split at moved
      · obtain ⟨d₁, landed, done⟩ := Throwing.ok_of_bind moved
        obtain rfl := Except.ok.inj done
        exact (invariant.onServer landed).1.congr rfl rfl rfl
      · cases moved
  | succeed i => exact (invariant.onServer moved).1
  | fail i => exact (invariant.onServer moved).1
  | capture => exact (invariant.onServer moved).1
  | writeSnapshot k => exact (invariant.onServer moved).1
  | restart =>
      obtain ⟨d₁, restarted, done⟩ := Throwing.ok_of_bind moved
      obtain rfl := Except.ok.inj done
      obtain ⟨invariant₁, sessions, rows⟩ := invariant.onServer restarted
      -- every id that was given is in the table or smaller than one that is
      refine ⟨⟨invariant₁.unique.given, invariant₁.unique.minted⟩, fun s member => ?_, invariant₁.engines,
        invariant₁.minted⟩
      obtain ⟨row, inTable, covered⟩ := recorded s (sessions ▸ member)
      exact lt_of_le_of_lt covered (lt_nextReplicaIdOf (rows ▸ inTable))

end Invariant

/-- As long as every restart finds the largest given id covered by the sessions table, no replica
id and no operation identifier is used twice. -/
theorem ids_unique (documentId : String) (events : List DeploymentEvent)
    (each : Run.Each step Recorded (init documentId) events) :
    Run.Always step UniqueIds (init documentId) events :=
  (Run.always_of_each (fun _ _ _ invariant recorded moved => invariant.step recorded moved)
    (invariant_init documentId) each).imp fun _ invariant => invariant.unique

/-- A session joins and types, its operation is committed, and the server restarts. -/
def remembered : List DeploymentEvent :=
  [.join, .seed 0 [], .edit 0 (.insert 0 97 false),
    .send 0 [.insert ⟨⟨1, 1⟩, 97, none, .R, false⟩] 5, .start 0, .land 0 6, .succeed 0, .restart,
    .join, .seed 1 [⟨⟨1, 1⟩, 97, none, .R, false, false, none⟩], .edit 1 (.insert 0 98 false)]

theorem ids_unique_remembered : Run.Always step UniqueIds (init "document") remembered :=
  ids_unique "document" remembered (by decide +kernel)

/-- The session's row and its operation are both lost with the process, and the next session mints
the same identifier for another character. -/
def reused : List DeploymentEvent :=
  [.join, .seed 0 [], .edit 0 (.insert 0 97 false), .heartbeatFails 0,
    .send 0 [.insert ⟨⟨1, 1⟩, 97, none, .R, false⟩] 5, .start 0, .fail 0, .restart,
    .join, .seed 1 [], .edit 1 (.insert 0 98 false)]

theorem ids_reused : ¬ ∀ documentId events,
    Run.Always step UniqueIds (init documentId) events := by
  intro claimed
  obtain ⟨d, ran, same⟩ := Run.exists_of_ends (Run.run step (init "document") reused)
    (fun d => decide (d.sessions.map ClientSession.replicaId = [1, 1]) &&
      decide (d.issued.map Operation.id = [⟨1, 1⟩, ⟨1, 1⟩])) (by decide +kernel)
  have unique := ((claimed "document" reused).last ran).given
  simp only [Bool.and_eq_true, decide_eq_true_eq] at same
  rw [same.1] at unique
  exact absurd unique (by decide)

end Deployment

end ConfluenceEditor
