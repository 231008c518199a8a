/-
What the server has promised to the clients.

Acknowledgements wait in a batch and in the queues, travel on the wire and end in a client's queue;
listings wait, travel and are chained onto a client's gate. `Backed durable listed` says that
everything on its way is backed: what will be acknowledged is `durable`, and what will be listed to a
client in one of its handshakes is `listed`. `Backed.step` is the one look at every event, for any
two such predicates that grow with what the server knows; `Backed.dropped` says what leaves the
clients' queues.
-/

import ConfluenceEditor.Collaboration.Machine
import ConfluenceEditor.Library.Slots

namespace ConfluenceEditor

open Engine Coordinator

/-! ### The frames of a connection -/

def ackedIn : OpsFrameMessage → List Identifier
  | .opAck acks => acks.map Prod.fst
  | _ => []

def listedIn : ControlMessage → List Identifier
  | .alreadyHave alreadyHave => alreadyHave
  | _ => []

/-- What the server has promised on a connection: every stamp that is or will be acknowledged is
durable, and every stamp that is or will be listed may be listed. -/
structure Connection.Promised (durable listed : Identifier → Prop) (c : Connection) : Prop where
  batch : ∀ ack ∈ c.ackBatch, durable ack.1
  acks : ∀ msg, msg ∈ c.opsQueue ∨ .ops msg ∈ c.wire → ∀ id ∈ ackedIn msg, durable id
  found : ∀ unacked ids, c.handshake = some (.found unacked ids) → ∀ id ∈ ids, durable id
  lists : ∀ msg, msg ∈ c.controlQueue ∨ .control msg ∈ c.wire → ∀ id ∈ listedIn msg, listed id
  silent : c.opened = false → c.isOpen = false ∧ c.hello = none ∧ c.handshake = none ∧
    c.opsQueue = [] ∧ c.controlQueue = [] ∧ c.wire = []

namespace Connection.Promised

variable {durable listed durable' listed' : Identifier → Prop} {c : Connection}

theorem mono (promised : c.Promised durable listed) (lasting : ∀ id, durable id → durable' id)
    (kept : ∀ id, listed id → listed' id) : c.Promised durable' listed' where
  batch ack member := lasting _ (promised.batch ack member)
  acks msg sent id member := lasting id (promised.acks msg sent id member)
  found unacked ids stage id member := lasting id (promised.found unacked ids stage id member)
  lists msg sent id member := kept id (promised.lists msg sent id member)
  silent := promised.silent

theorem enqueueOps (promised : c.Promised durable listed) {msg : OpsFrameMessage}
    (acked : ∀ id ∈ ackedIn msg, durable id) : (c.enqueueOps msg).Promised durable listed := by
  unfold Connection.enqueueOps
  split_ifs with opened
  · refine ⟨promised.batch, fun m sent => ?_, promised.found, promised.lists, fun closed =>
      absurd (opened.symm.trans (promised.silent closed).1) nofun⟩
    rcases sent with queued | gone
    · rcases List.mem_append.mp queued with old | new
      · exact promised.acks m (Or.inl old)
      · rwa [List.mem_singleton.mp new]
    · exact promised.acks m (Or.inr gone)
  · exact promised

theorem enqueueControl (promised : c.Promised durable listed) {msgs : List ControlMessage}
    (allowed : ∀ msg ∈ msgs, ∀ id ∈ listedIn msg, listed id) :
    (c.enqueueControl msgs).Promised durable listed := by
  unfold Connection.enqueueControl
  split_ifs with opened
  · refine ⟨promised.batch, promised.acks, promised.found, fun m sent => ?_, fun closed =>
      absurd (opened.symm.trans (promised.silent closed).1) nofun⟩
    rcases sent with queued | gone
    · rcases List.mem_append.mp queued with old | new
      · exact promised.lists m (Or.inl old)
      · exact allowed m new
    · exact promised.lists m (Or.inr gone)
  · exact promised

theorem addAcks (promised : c.Promised durable listed) {acks : List (Identifier × Nat)}
    (acked : ∀ ack ∈ acks, durable ack.1) : (c.addAcks acks).Promised durable listed := by
  unfold Connection.addAcks
  split_ifs
  · refine ⟨fun ack member => ?_, promised.acks, promised.found, promised.lists, promised.silent⟩
    rcases List.mem_append.mp member with old | new
    · exact promised.batch ack old
    · exact acked ack new
  · exact promised

/-- A frame is sent. -/
theorem drain (promised : c.Promised durable listed) {frame : ServerFrame} {c' : Connection}
    (next : c.nextFrame = some (frame, c')) :
    Promised durable listed { c' with wire := c'.wire ++ [frame] } := by
  obtain ⟨opsQueue, controlQueue, rfl, ops, control⟩ := Connection.nextFrame_spec next
  refine ⟨promised.batch, fun msg sent => promised.acks msg ?_, promised.found,
    fun msg sent => promised.lists msg ?_, fun closed => ?_⟩
  · rcases sent with queued | gone
    · exact Or.inl (ops msg (Or.inl queued))
    · rcases List.mem_append.mp gone with old | new
      · exact Or.inr old
      · exact Or.inl (ops msg (Or.inr (List.mem_singleton.mp new)))
  · rcases sent with queued | gone
    · exact Or.inl (control msg (Or.inl queued))
    · rcases List.mem_append.mp gone with old | new
      · exact Or.inr old
      · exact Or.inl (control msg (Or.inr (List.mem_singleton.mp new)))
  · -- a silent connection has nothing to send
    obtain ⟨-, -, -, noOps, noControl, -⟩ := promised.silent closed
    rw [Connection.nextFrame, noOps, noControl] at next
    cases next

theorem leave (promised : c.Promised durable listed) : c.leave.Promised durable listed where
  batch := nofun
  acks msg sent := promised.acks msg (sent.imp_left nofun)
  found := promised.found
  lists msg sent := promised.lists msg (sent.imp_left nofun)
  silent closed := by
    obtain ⟨-, hello, stage, -, -, wire⟩ := promised.silent closed
    exact ⟨rfl, hello, stage, rfl, rfl, wire⟩

theorem crash (promised : c.Promised durable listed) : c.crash.Promised durable listed where
  batch := nofun
  acks msg sent := promised.acks msg (sent.imp_left nofun)
  found := nofun
  lists msg sent := promised.lists msg (sent.imp_left nofun)
  silent closed := ⟨rfl, rfl, rfl, rfl, rfl, (promised.silent closed).2.2.2.2.2⟩

end Connection.Promised

theorem Connection.promised_new (durable listed : Identifier → Prop) (client generation : Nat) :
    (Connection.new client generation).Promised durable listed where
  batch := nofun
  acks msg sent := by rcases sent with queued | gone <;> cases ‹_ ∈ _›
  found := nofun
  lists msg sent := by rcases sent with queued | gone <;> cases ‹_ ∈ _›
  silent _ := ⟨rfl, rfl, rfl, rfl, rfl, rfl⟩

namespace Collaboration

theorem connection_ok {s : Collaboration} {k : Nat} {conn : Connection}
    (found : s.connection k = .ok conn) : s.connections[k]? = some conn := by
  unfold connection at found
  split at found
  · rename_i entry
    rw [entry, Except.ok.inj found]
  · cases found

/-- Every promise is kept, on every connection and in every gate. The client of a socket that is open
is in the generation of its connection. -/
structure Backed (durable : Identifier → Prop) (listed : Nat → Nat → Identifier → Prop)
    (s : Collaboration) : Prop where
  promised : ∀ conn ∈ s.connections, conn.Promised durable (listed conn.client conn.generation)
  current : ∀ i k, s.sockets i = some k → ∃ conn, s.connections[k]? = some conn ∧
    conn.client = i ∧ (conn.opened = true → conn.generation = (s.clients i).handshakeGeneration)
  gates : ∀ i generation ids, (generation, .alreadyHave ids) ∈ (s.clients i).handshakeGate →
    ∀ id ∈ ids, listed i generation id

theorem backed_init (durable : Identifier → Prop) (listed : Nat → Nat → Identifier → Prop)
    (documentId : String) : (init documentId).Backed durable listed where
  promised := nofun
  current i k socket := by cases socket
  gates i generation ids member := by cases member

variable {durable durable' : Identifier → Prop} {listed listed' : Nat → Nat → Identifier → Prop}

/-- Every connection keeps its client, its generation and its promises. -/
structure Follows (durable : Identifier → Prop) (listed : Nat → Nat → Identifier → Prop)
    (connections connections' : List Connection) : Prop where
  length : connections'.length = connections.length
  each : ∀ (k : Nat) (conn conn' : Connection), connections[k]? = some conn →
    connections'[k]? = some conn' → conn'.client = conn.client ∧
      conn'.generation = conn.generation ∧ conn'.opened = conn.opened ∧
      (conn.Promised durable (listed conn.client conn.generation) →
        conn'.Promised durable (listed conn.client conn.generation))

namespace Follows

variable {connections connections' connections'' : List Connection}

theorem refl (durable : Identifier → Prop) (listed : Nat → Nat → Identifier → Prop)
    (connections : List Connection) : Follows durable listed connections connections where
  length := rfl
  each k conn conn' here there := by
    obtain rfl := Option.some.inj (here.symm.trans there)
    exact ⟨rfl, rfl, rfl, fun promised => promised⟩

theorem before (follows : Follows durable listed connections connections') {k : Nat} {conn' : Connection}
    (there : connections'[k]? = some conn') : ∃ conn, connections[k]? = some conn := by
  have inside := (List.getElem?_eq_some_iff.mp there).1
  rw [follows.length] at inside
  exact ⟨_, List.getElem?_eq_getElem inside⟩

theorem after (follows : Follows durable listed connections connections') {k : Nat} {conn : Connection}
    (here : connections[k]? = some conn) : ∃ conn', connections'[k]? = some conn' := by
  have inside := (List.getElem?_eq_some_iff.mp here).1
  rw [← follows.length] at inside
  exact ⟨_, List.getElem?_eq_getElem inside⟩

theorem trans (first : Follows durable listed connections connections')
    (second : Follows durable listed connections' connections'') :
    Follows durable listed connections connections'' where
  length := second.length.trans first.length
  each k conn conn'' here there := by
    obtain ⟨conn', between⟩ := first.after here
    obtain ⟨client, generation, opened, promised⟩ := first.each k conn conn' here between
    obtain ⟨client', generation', opened', promised'⟩ := second.each k conn' conn'' between there
    rw [client, generation] at promised'
    exact ⟨client'.trans client, generation'.trans generation, opened'.trans opened,
      fun kept => promised' (promised kept)⟩

/-- Every connection is changed by a function of its number. -/
theorem of_getElem? (f : Nat → Connection → Connection)
    (entries : ∀ k, connections'[k]? = (connections[k]?).map (f k))
    (same : ∀ k conn, connections[k]? = some conn → (f k conn).client = conn.client ∧
      (f k conn).generation = conn.generation ∧ (f k conn).opened = conn.opened ∧
      (conn.Promised durable (listed conn.client conn.generation) →
        (f k conn).Promised durable (listed conn.client conn.generation))) :
    Follows durable listed connections connections' where
  length := by
    refine Nat.le_antisymm ?_ ?_
    · rw [← List.getElem?_eq_none_iff, entries, Option.map_eq_none_iff, List.getElem?_eq_none_iff]
    · have none : connections'[connections'.length]? = none :=
        List.getElem?_eq_none_iff.mpr (le_refl _)
      rw [entries, Option.map_eq_none_iff, List.getElem?_eq_none_iff] at none
      exact none
  each k conn conn' here there := by
    rw [entries, here] at there
    obtain rfl := Option.some.inj there
    exact same k conn here

theorem foldl {α : Type} (f : List Connection → α → List Connection)
    (each : ∀ connections a, Follows durable listed connections (f connections a)) (items : List α)
    (connections : List Connection) : Follows durable listed connections (items.foldl f connections) := by
  induction items generalizing connections with
  | nil => exact .refl durable listed connections
  | cons a items ih => exact (each connections a).trans (ih _)

end Follows

/-- A frame arrives at a client that has let go of the socket, or is handled. -/
theorem deliver_cases {s s' : Collaboration} {k : Nat} (moved : s.deliver k = .ok s') : ∃ conn frame wire,
    s.connections[k]? = some conn ∧ conn.wire = frame :: wire ∧ conn.opened = true ∧
      ((s.sockets conn.client ≠ some k ∧ s' = s.setConnection k { conn with wire }) ∨
        (s.sockets conn.client = some k ∧
          ∃ c', handleFrame (s.clients conn.client) frame = .ok c' ∧
            s' = ((s.setConnection k { conn with wire }).noteDropped conn.client
              (ackedNow (s.clients conn.client) frame) .opAck).setClient conn.client c')) := by
  obtain ⟨conn, found, moved⟩ := Throwing.ok_of_bind moved
  split at moved
  · cases moved
  · rename_i frame wire onWire
    split_ifs at moved with closed
    refine ⟨conn, frame, wire, connection_ok found, onWire, by simpa using closed, ?_⟩
    simp only at moved
    split_ifs at moved with current
    · obtain ⟨c', handled, done⟩ := Throwing.ok_of_bind moved
      exact Or.inr ⟨current, c', handled, (Except.ok.inj done).symm⟩
    · exact Or.inl ⟨current, (Except.ok.inj moved).symm⟩

/-! ### Where an event happens -/

section Places

variable {s s' : Collaboration} {settings : Settings} {event : CollaborationEvent}

/-- The server does not notice a client's event. -/
theorem at_client (moved : s.step settings event = .ok s') (place : event.atClient = true) :
    s'.server = s.server ∧ s'.listings = s.listings := by
  cases event <;> try cases place
  case opened k =>
    obtain ⟨conn, -, done⟩ := Throwing.ok_of_bind moved
    split_ifs at done
    obtain rfl := Except.ok.inj done
    exact ⟨rfl, rfl⟩
  case deliver k =>
    obtain ⟨conn, frame, wire, -, -, -, ⟨-, rfl⟩ | ⟨-, c', -, rfl⟩⟩ := deliver_cases moved
    · exact ⟨rfl, rfl⟩
    · exact ⟨rfl, rfl⟩
  case gate i nowMs =>
    obtain ⟨c', -, done⟩ := Throwing.ok_of_bind moved
    obtain rfl := Except.ok.inj done
    exact ⟨rfl, rfl⟩
  all_goals
    obtain rfl := Except.ok.inj moved
    exact ⟨rfl, rfl⟩

theorem onServer_same {e : ServerEvent} (moved : s.onServer e = .ok s') :
    s.server.step e = .ok s'.server ∧ s' = { s with server := s'.server } := by
  obtain ⟨server, stepped, done⟩ := Throwing.ok_of_bind moved
  obtain rfl := Except.ok.inj done
  exact ⟨stepped, rfl⟩

/-- A server's event leaves the clients alone, and is one of its own events, a sweep, or nothing
that the server remembers. -/
theorem at_server (moved : s.step settings event = .ok s') (place : event.atClient = false) :
    (s'.clients = s.clients ∧ s'.dropped = s.dropped ∧ s.listings ⊆ s'.listings) ∧
      (s'.server = s.server ∨
        (∃ e, s.server.step e = .ok s'.server ∧ (e = .restart → ∃ n, event = .restart n)) ∨
        ∃ nowMs, s' = s.sweep settings nowMs) := by
  cases event <;> try cases place
  case hello k role =>
    obtain ⟨conn, -, done⟩ := Throwing.ok_of_bind moved
    split at done
    · cases done
    · obtain rfl := Except.ok.inj done
      exact ⟨⟨rfl, rfl, List.Subset.refl _⟩, Or.inl rfl⟩
  case handshake k =>
    obtain ⟨conn, -, done⟩ := Throwing.ok_of_bind moved
    split at done
    · cases done
    · obtain rfl := Except.ok.inj done
      exact ⟨⟨rfl, rfl, List.Subset.refl _⟩, Or.inl rfl⟩
    · split_ifs at done <;> obtain rfl := Except.ok.inj done <;>
        exact ⟨⟨rfl, rfl, List.Subset.refl _⟩, Or.inl rfl⟩
    · obtain rfl := Except.ok.inj done
      exact ⟨⟨rfl, rfl, List.subset_append_left ..⟩, Or.inl rfl⟩
  case receive k j refusal nowMs =>
    obtain ⟨conn, -, moved⟩ := Throwing.ok_of_bind moved
    split at moved
    case h_2 => cases moved
    rename_i replicaId ops session waiting
    simp only at moved
    split at moved
    · obtain rfl := Except.ok.inj moved
      exact ⟨⟨rfl, rfl, List.Subset.refl _⟩, Or.inl rfl⟩
    · obtain rfl := Except.ok.inj moved
      exact ⟨⟨rfl, rfl, List.Subset.refl _⟩, Or.inl rfl⟩
    · split_ifs at moved
      · obtain rfl := Except.ok.inj moved
        exact ⟨⟨rfl, rfl, List.Subset.refl _⟩, Or.inl rfl⟩
      · obtain ⟨⟨coordinator, relays⟩, processed, done⟩ := Throwing.ok_of_bind moved
        obtain rfl := Except.ok.inj done
        rename_i first later _ _
        refine ⟨⟨rfl, rfl, List.Subset.refl _⟩,
          Or.inr (Or.inl ⟨.receive k (first :: later) nowMs, ?_, by rintro ⟨⟩⟩)⟩
        rw [Server.step, processed]
        rfl
  case flushAcks k =>
    obtain ⟨conn, -, done⟩ := Throwing.ok_of_bind moved
    obtain rfl := Except.ok.inj done
    exact ⟨⟨rfl, rfl, List.Subset.refl _⟩, Or.inl rfl⟩
  case drain k =>
    obtain ⟨conn, -, done⟩ := Throwing.ok_of_bind moved
    split at done
    · obtain rfl := Except.ok.inj done
      exact ⟨⟨rfl, rfl, List.Subset.refl _⟩, Or.inl rfl⟩
    · cases done
  case leave k =>
    obtain ⟨conn, -, done⟩ := Throwing.ok_of_bind moved
    obtain rfl := Except.ok.inj done
    exact ⟨⟨rfl, rfl, List.Subset.refl _⟩, Or.inl rfl⟩
  case permissionChanged k role =>
    obtain ⟨conn, -, done⟩ := Throwing.ok_of_bind moved
    obtain rfl := Except.ok.inj done
    exact ⟨⟨rfl, rfl, List.Subset.refl _⟩, Or.inl rfl⟩
  case sweep nowMs =>
    obtain rfl := Except.ok.inj moved
    exact ⟨⟨rfl, rfl, List.Subset.refl _⟩, Or.inr (Or.inr ⟨nowMs, rfl⟩)⟩
  case succeed i =>
    obtain ⟨next, served, done⟩ := Throwing.ok_of_bind moved
    obtain rfl := Except.ok.inj done
    obtain ⟨stepped, same⟩ := onServer_same served
    refine ⟨?_, Or.inr (Or.inl ⟨.succeed i, stepped, by rintro ⟨⟩⟩)⟩
    rw [same]
    exact ⟨rfl, rfl, List.Subset.refl _⟩
  case restart nextReplicaId =>
    obtain ⟨next, served, done⟩ := Throwing.ok_of_bind moved
    obtain rfl := Except.ok.inj done
    obtain ⟨stepped, same⟩ := onServer_same served
    refine ⟨?_, Or.inr (Or.inl ⟨.restart, stepped, fun _ => ⟨nextReplicaId, rfl⟩⟩)⟩
    rw [same]
    exact ⟨rfl, rfl, List.Subset.refl _⟩
  all_goals
    obtain ⟨stepped, same⟩ := onServer_same moved
    refine ⟨?_, Or.inr (Or.inl ⟨_, stepped, fun other => by cases other⟩)⟩
    rw [same]
    exact ⟨rfl, rfl, List.Subset.refl _⟩

/-- A sweep takes operations out of the buffer of the engine. -/
theorem sweep_server (s : Collaboration) (settings : Settings) (nowMs : Nat) :
    ∃ coordinator pending, (s.sweep settings nowMs).server = { s.server with coordinator } ∧
      coordinator.queue = s.server.coordinator.queue ∧
      coordinator.engine = { s.server.coordinator.engine with pending } ∧
      pending.Sublist s.server.coordinator.engine.pending := by
  obtain ⟨state, evicted, swept, -, ⟨pending, engine, sub⟩, queue, -⟩ :=
    SweepState.runOneDocument_spec ⟨s.server.coordinator, s.pendingFirstSeenAtMs⟩ s.sessions
      settings.offlineWindow nowMs
  unfold Collaboration.sweep
  generalize SweepState.runOneDocument _ _ _ _ = outcome at swept
  obtain ⟨state', evicted', rejects⟩ := outcome
  obtain rfl : state' = state := swept
  exact ⟨state'.coordinator, pending, rfl, queue, engine, sub⟩

end Places

namespace Backed

variable {s s' : Collaboration}

/-- The predicates may grow. -/
theorem mono (backed : s.Backed durable listed) (lasting : ∀ id, durable id → durable' id)
    (kept : ∀ i generation id, listed i generation id → listed' i generation id) :
    s.Backed durable' listed' where
  promised conn member := (backed.promised conn member).mono lasting (kept _ _)
  current := backed.current
  gates i generation ids chained id member :=
    kept i generation id (backed.gates i generation ids chained id member)

/-- Nothing but the connections, the sockets and the clients matters. -/
theorem congr (backed : s.Backed durable listed) (connections : s'.connections = s.connections)
    (sockets : s'.sockets = s.sockets) (clients : s'.clients = s.clients) :
    s'.Backed durable listed where
  promised := by
    rw [connections]
    exact backed.promised
  current := by
    rw [connections, sockets, clients]
    exact backed.current
  gates := by
    rw [clients]
    exact backed.gates

theorem reconnect (backed : s.Backed durable listed) {connections : List Connection}
    (follows : Follows durable listed s.connections connections) :
    Backed durable listed { s with connections } where
  promised conn' member := by
    obtain ⟨k, there⟩ := List.getElem?_of_mem member
    obtain ⟨conn, here⟩ := follows.before there
    obtain ⟨client, generation, -, promised⟩ := follows.each k conn conn' here there
    rw [client, generation]
    exact promised (backed.promised conn (List.mem_of_getElem? here))
  current i k socket := by
    obtain ⟨conn, here, owner, tag⟩ := backed.current i k socket
    obtain ⟨conn', there⟩ := follows.after here
    obtain ⟨client, generation, opened, -⟩ := follows.each k conn conn' here there
    refine ⟨conn', there, client.trans owner, ?_⟩
    rw [generation, opened]
    exact tag
  gates := backed.gates

/-- One connection is replaced. -/
theorem setConnection (backed : s.Backed durable listed) {k : Nat} {conn conn' : Connection}
    (here : s.connections[k]? = some conn) (client : conn'.client = conn.client)
    (generation : conn'.generation = conn.generation) (opened : conn'.opened = conn.opened)
    (kept : conn.Promised durable (listed conn.client conn.generation) →
      conn'.Promised durable (listed conn.client conn.generation)) :
    (s.setConnection k conn').Backed durable listed := by
  refine backed.reconnect ⟨List.length_set, fun j c c' before after => ?_⟩
  rcases Slots.of_set after with ⟨rfl, rfl⟩ | ⟨-, old⟩
  · obtain rfl := Option.some.inj (here.symm.trans before)
    exact ⟨client, generation, opened, kept⟩
  · obtain rfl := Option.some.inj (before.symm.trans old)
    exact ⟨rfl, rfl, rfl, fun promised => promised⟩

theorem follows_modify {connections : List Connection} (k : Nat) {f : Connection → Connection}
    (same : ∀ conn, connections[k]? = some conn → (f conn).client = conn.client ∧
      (f conn).generation = conn.generation ∧ (f conn).opened = conn.opened ∧
      (conn.Promised durable (listed conn.client conn.generation) →
        (f conn).Promised durable (listed conn.client conn.generation))) :
    Follows durable listed connections (connections.modify k f) := by
  refine .of_getElem? (fun j conn => if k = j then f conn else conn) (fun j => ?_)
    fun j conn here => ?_
  · rw [List.getElem?_modify]
    by_cases here : k = j
    · simp only [if_pos here]
      rfl
    · simp only [if_neg here]
      cases connections[j]? <;> rfl
  · split_ifs with there
    · subst there
      exact same conn here
    · exact ⟨rfl, rfl, rfl, fun promised => promised⟩

/-- A client changes; the jobs in its gate are old ones, or list what may be listed. -/
theorem setClient (backed : s.Backed durable listed) (i : Nat) {c : ConnectedClient}
    (generation : c.handshakeGeneration = (s.clients i).handshakeGeneration)
    (gate : ∀ g ids, (g, .alreadyHave ids) ∈ c.handshakeGate →
      (g, .alreadyHave ids) ∈ (s.clients i).handshakeGate ∨ ∀ id ∈ ids, listed i g id) :
    (s.setClient i c).Backed durable listed := by
  have sent : Follows durable listed s.connections (s.setClient i c).connections := by
    unfold Collaboration.setClient
    cases s.sockets i with
    | none => exact Follows.refl durable listed s.connections
    | some k => exact follows_modify k fun conn _ => ⟨rfl, rfl, rfl, fun promised =>
        ⟨promised.batch, promised.acks, promised.found, promised.lists, promised.silent⟩⟩
  have moved := backed.reconnect sent
  refine ⟨moved.promised, fun j k socket => ?_, fun j g ids chained id member => ?_⟩
  · obtain ⟨conn, here, client, tag⟩ := moved.current j k socket
    refine ⟨conn, here, client, fun opened => ?_⟩
    rw [tag opened]
    by_cases same : j = i
    · subst same
      simp only [Collaboration.setClient, Function.update_self]
      exact generation.symm
    · simp only [Collaboration.setClient, Function.update_of_ne same]
  · by_cases same : j = i
    · subst same
      simp only [Collaboration.setClient, Function.update_self] at chained
      rcases gate g ids chained with old | new
      · exact backed.gates j g ids old id member
      · exact new id member
    · simp only [Collaboration.setClient, Function.update_of_ne same] at chained
      exact backed.gates j g ids chained id member

/-- A new socket is silent. -/
theorem openSocket (backed : s.Backed durable listed) (i : Nat) {c : ConnectedClient}
    (gate : (s.clients i).SameGate c) : (s.openSocket i c).Backed durable listed where
  promised conn member := by
    rcases List.mem_append.mp member with old | new
    · exact backed.promised conn old
    · rw [List.mem_singleton.mp new]
      exact Connection.promised_new ..
  current j k socket := by
    simp only [Collaboration.openSocket] at socket ⊢
    by_cases same : j = i
    · subst same
      rw [Function.update_self] at socket
      obtain rfl := Option.some.inj socket
      exact ⟨_, List.getElem?_concat_length, rfl, nofun⟩
    · rw [Function.update_of_ne same] at socket ⊢
      obtain ⟨conn, here, client, tag⟩ := backed.current j k socket
      have inside := (List.getElem?_eq_some_iff.mp here).1
      exact ⟨conn, (List.getElem?_append_left inside).trans here, client, tag⟩
  gates j g ids chained id member := by
    by_cases same : j = i
    · subst same
      simp only [Collaboration.openSocket, Function.update_self, gate.1] at chained
      exact backed.gates j g ids chained id member
    · simp only [Collaboration.openSocket, Function.update_of_ne same] at chained
      exact backed.gates j g ids chained id member

/-- A client without a socket, or whose socket stays the same. -/
theorem letGo (backed : s.Backed durable listed) (i : Nat) {c : ConnectedClient}
    (gate : (s.clients i).SameGate c) {sockets : Nat → Option Nat}
    (fewer : ∀ j k, sockets j = some k → s.sockets j = some k) :
    Backed durable listed { s with sockets, clients := Function.update s.clients i c } where
  promised := backed.promised
  current j k socket := by
    obtain ⟨conn, here, client, tag⟩ := backed.current j k (fewer j k socket)
    refine ⟨conn, here, client, fun opened => (tag opened).trans ?_⟩
    by_cases same : j = i
    · subst same
      simp only [Function.update_self]
      exact gate.2.symm
    · simp only [Function.update_of_ne same]
  gates j g ids chained id member := by
    by_cases same : j = i
    · subst same
      simp only [Function.update_self, gate.1] at chained
      exact backed.gates j g ids chained id member
    · simp only [Function.update_of_ne same] at chained
      exact backed.gates j g ids chained id member

theorem closeSocket (backed : s.Backed durable listed) (i : Nat) {c : ConnectedClient}
    (gate : (s.clients i).SameGate c) : (s.closeSocket i c).Backed durable listed := by
  refine backed.letGo i gate fun j k socket => ?_
  by_cases same : j = i
  · rw [same, Function.update_self] at socket
    cases socket
  · rwa [Function.update_of_ne same] at socket

/-! ### The clients' events -/

/-- What a frame acknowledges is durable. -/
theorem acked (backed : s.Backed durable listed) {k : Nat} {conn : Connection}
    {frame : ServerFrame} {wire : List ServerFrame} (here : s.connections[k]? = some conn)
    (onWire : conn.wire = frame :: wire) {id : Identifier}
    (member : id ∈ ackedNow (s.clients conn.client) frame) : durable id := by
  have isFirst : frame ∈ conn.wire := by
    rw [onWire]
    exact List.mem_cons_self
  have promised := backed.promised conn (List.mem_of_getElem? here)
  cases frame with
  | control msg => cases member
  | ops msg =>
      cases msg with
      | ops seq ops => cases member
      | opReject rejects detail => cases member
      | opAck acks =>
          exact promised.acks (.opAck acks) (Or.inr isFirst) id (List.mem_filter.mp member).1

/-- A frame arrives: a listing is chained onto the gate for the generation of its connection. -/
theorem deliver (backed : s.Backed durable listed) {k : Nat} (moved : s.deliver k = .ok s') :
    s'.Backed durable listed := by
  obtain ⟨conn, frame, wire, here, onWire, opened, outcome⟩ := deliver_cases moved
  have promised := backed.promised conn (List.mem_of_getElem? here)
  have isFirst : frame ∈ conn.wire := by
    rw [onWire]
    exact List.mem_cons_self
  have rest : ∀ f ∈ wire, f ∈ conn.wire := fun f member => by
    rw [onWire]
    exact List.mem_cons_of_mem _ member
  have taken : (s.setConnection k { conn with wire }).Backed durable listed :=
    backed.setConnection here rfl rfl rfl fun promised =>
      ⟨promised.batch, fun msg sent => promised.acks msg (sent.imp_right (rest _)), promised.found,
        fun msg sent => promised.lists msg (sent.imp_right (rest _)), fun silent =>
          absurd (opened.symm.trans silent) nofun⟩
  obtain ⟨-, rfl⟩ | ⟨current, c', handled, rfl⟩ := outcome
  · exact taken
  have noted : ((s.setConnection k { conn with wire }).noteDropped conn.client
      (ackedNow (s.clients conn.client) frame) .opAck).Backed durable listed :=
    taken.congr rfl rfl rfl
  cases frame with
  | ops msg =>
      obtain ⟨gate, generation⟩ := ConnectedClient.sameGate_handleOpsMessage handled
      refine noted.setClient conn.client generation fun g ids chained => Or.inl ?_
      rwa [gate] at chained
  | control msg =>
      obtain ⟨gate, generation⟩ := ConnectedClient.handleControl_gate handled
      refine noted.setClient conn.client generation fun g ids chained => ?_
      rw [gate] at chained
      rcases List.mem_append.mp chained with old | new
      · exact Or.inl old
      · -- the new job is a listing of this connection, whose generation is the client's
        right
        obtain ⟨conn', there, -, tag⟩ := backed.current conn.client k current
        obtain rfl := Option.some.inj (here.symm.trans there)
        obtain ⟨job, isJob, same⟩ := Option.map_eq_some_iff.mp (Option.mem_toList.mp new)
        obtain ⟨rfl, rfl⟩ := Prod.mk.inj same
        have listing : msg = .alreadyHave ids := by
          cases msg <;> simp [ConnectedClient.jobOf] at isJob
          rw [isJob]
        subst listing
        intro id member
        have allowed := promised.lists (.alreadyHave ids) (Or.inr isFirst) id member
        rwa [tag opened] at allowed

/-- What the next job of a gate takes out of the queue was listed for this handshake. -/
theorem listedNow (backed : s.Backed durable listed) {i : Nat} {id : Identifier}
    (member : id ∈ listedNow (s.clients i)) : listed i (s.clients i).handshakeGeneration id := by
  unfold Collaboration.listedNow at member
  split at member
  case h_2 => cases member
  rename_i g alreadyHave later e chained resident
  split_ifs at member with fresh
  case neg => cases member
  obtain ⟨-, kept⟩ := List.mem_filter.mp member
  rw [← fresh]
  refine backed.gates i g alreadyHave ?_ id (of_decide_eq_true kept).2
  rw [chained]
  exact List.mem_cons_self

theorem gate (backed : s.Backed durable listed) {i : Nat} {c' : ConnectedClient} {nowMs : Nat}
    (ran : (s.clients i).runGate nowMs = .ok c') : ((s.noteDropped i
      (Collaboration.listedNow (s.clients i)) .alreadyHave).setClient i c').Backed durable listed := by
  obtain ⟨gate, generation⟩ := ConnectedClient.runGate_gate ran
  have noted : (s.noteDropped i (Collaboration.listedNow (s.clients i)) .alreadyHave).Backed
      durable listed := backed.congr rfl rfl rfl
  refine noted.setClient i generation fun g ids chained => Or.inl ?_
  rw [gate] at chained
  exact List.mem_of_mem_tail chained

/-- The socket opens: the jobs of the handshake before it are gone. -/
theorem opened (backed : s.Backed durable listed) {k : Nat} {conn : Connection}
    (here : s.connections[k]? = some conn) (current : s.sockets conn.client = some k)
    (closed : conn.opened = false) : ((s.setConnection k { conn with
      opened := true
      generation := ((s.clients conn.client).onOpen).1.handshakeGeneration
      hello := some ((s.clients conn.client).onOpen).2 }).setClient conn.client
        ((s.clients conn.client).onOpen).1).Backed durable listed := by
  set c := ((s.clients conn.client).onOpen).1 with new
  set hello := ((s.clients conn.client).onOpen).2
  set conn' : Connection := { conn with
    opened := true, generation := c.handshakeGeneration, hello := some hello } with open'
  have inside := (List.getElem?_eq_some_iff.mp here).1
  have promised := backed.promised conn (List.mem_of_getElem? here)
  obtain ⟨-, -, stage, noOps, noControl, nothing⟩ := promised.silent closed
  -- the client's change and the connection's go together
  have together : Backed durable listed { s with
      connections := s.connections.set k conn'
      clients := Function.update s.clients conn.client c } := by
    refine ⟨fun other member => ?_, fun j k' socket => ?_,
      fun j g ids chained id member => ?_⟩
    · rcases List.mem_or_eq_of_mem_set member with old | rfl
      · exact backed.promised other old
      · exact ⟨promised.batch, fun msg sent => promised.acks msg sent,
          fun unacked ids found => (nomatch stage.symm.trans found), fun msg sent => by
            rw [noControl, nothing] at sent
            rcases sent with queued | gone <;> contradiction, nofun⟩
    · obtain ⟨other, there, client, tag⟩ := backed.current j k' socket
      by_cases same : k' = k
      · subst same
        obtain rfl := Option.some.inj (here.symm.trans there)
        subst client
        refine ⟨conn', List.getElem?_set_self inside, rfl, fun _ => ?_⟩
        simp only [Function.update_self]
        rfl
      · have apart : j ≠ conn.client := fun owner => by
          subst owner
          exact same (Option.some.inj (socket.symm.trans current))
        simp only [Function.update_of_ne apart]
        exact ⟨other, (List.getElem?_set_ne (Ne.symm same)).trans there, client, tag⟩
    · by_cases same : j = conn.client
      · subst same
        simp only [Function.update_self] at chained
        cases chained
      · simp only [Function.update_of_ne same] at chained
        exact backed.gates j g ids chained id member
  have sent := together.setClient conn.client (c := c)
    (by simp only [Function.update_self]) fun g ids chained => Or.inl (by
      simp only [Function.update_self]
      exact chained)
  simp only [Collaboration.setClient, Function.update_idem] at sent
  exact sent

/-! ### The server's events -/

/-- The server has something new to say on a connection. -/
theorem enqueueControl (backed : s.Backed durable listed) {k : Nat} {conn conn' : Connection}
    (here : s.connections[k]? = some conn) (tag : conn'.client = conn.client ∧
      conn'.generation = conn.generation ∧ conn'.opened = conn.opened)
    (kept : conn.Promised durable (listed conn.client conn.generation) →
      conn'.Promised durable (listed conn.client conn.generation))
    {msgs : List ControlMessage}
    (allowed : ∀ msg ∈ msgs, ∀ id ∈ listedIn msg, listed conn.client conn.generation id) :
    (s.setConnection k (conn'.enqueueControl msgs)).Backed durable listed := by
  obtain ⟨controlQueue, same⟩ := conn'.enqueueControl_eq msgs
  refine backed.setConnection here ?_ ?_ ?_ fun promised => (kept promised).enqueueControl allowed
  · rw [same]
    exact tag.1
  · rw [same]
    exact tag.2.1
  · rw [same]
    exact tag.2.2

/-- On a connection that the server has heard of, the handler of the HELLO moves on. -/
theorem promised_stage {conn : Connection} {durable listed : Identifier → Prop}
    (promised : conn.Promised durable listed)
    (known : conn.hello ≠ none ∨ conn.handshake ≠ none) {hello : Option HelloMessage}
    {replicaId : Option Nat} {isOpen : Bool} {handshake : Option HandshakeStage}
    (found : ∀ unacked ids, handshake = some (.found unacked ids) → ∀ id ∈ ids, durable id) :
    Connection.Promised durable listed { conn with hello, replicaId, isOpen, handshake } := by
  refine ⟨promised.batch, promised.acks, found, promised.lists, fun closed => ?_⟩
  obtain ⟨-, noHello, noStage, -⟩ := promised.silent closed
  rcases known with heard | stage
  · exact absurd noHello heard
  · exact absurd noStage stage

theorem handleHandshake (backed : s.Backed durable listed) {k : Nat} {role : SessionRole}
    (moved : s.handleHandshake k role = .ok s') : s'.Backed durable listed := by
  obtain ⟨conn, found, moved⟩ := Throwing.ok_of_bind moved
  have here := connection_ok found
  split at moved
  case h_1 => cases moved
  rename_i hello heard
  obtain rfl := Except.ok.inj moved
  have numbered : Backed durable listed { s with nextReplicaId := s.nextReplicaId + 1 } :=
    backed.congr rfl rfl rfl
  refine numbered.enqueueControl here ?_ ?_ ?_
  · exact ⟨rfl, rfl, rfl⟩
  · refine fun promised => promised_stage promised (Or.inl fun none =>
      nomatch heard.symm.trans none) fun unacked ids stage => ?_
    split_ifs at stage <;> cases stage
  · intro msg member id listed
    rcases List.mem_cons.mp member with rfl | snapshot
    · cases listed
    · split_ifs at snapshot
      · rw [List.mem_singleton.mp snapshot] at listed
        cases listed
      · cases snapshot

/-- No message of a catch-up lists a stamp. -/
theorem listedIn_catchup {opBytes : Operation → Nat} {store : Store} {fromSeq toSeq : Nat}
    {msg : ControlMessage} (member : msg ∈ buildCatchupMessages opBytes store fromSeq toSeq) :
    listedIn msg = [] := by
  simp only [buildCatchupMessages, List.mem_append, List.mem_singleton, List.mem_map] at member
  obtain (rfl | ⟨chunk, -, rfl⟩) | rfl := member <;> rfl

/-- What the table of operations has is durable. -/
theorem durable_of_found {store : Store} {stamps : List Identifier} {id : Identifier}
    (member : id ∈ store.findExistingStamps stamps) : store.Durable id := by
  obtain ⟨row, inside, same⟩ := List.mem_map.mp member
  exact ⟨row, (List.mem_filter.mp inside).1, same⟩

/-- A listing is made of rows, and of what the live engine has applied. -/
theorem continueHandshake {settings : Settings} (backed : s.Backed durable listed) {k : Nat}
    (rows : ∀ id, s.server.store.Durable id → durable id)
    (both : ∀ i generation id, durable id → listed i generation id)
    (live : ∀ conn unacked ids, s.connections[k]? = some conn →
      conn.handshake = some (.found unacked ids) → ∀ id,
      s.server.coordinator.engine.hasApplied id = true → listed conn.client conn.generation id)
    (moved : s.continueHandshake settings k = .ok s') : s'.Backed durable listed := by
  obtain ⟨conn, found, moved⟩ := Throwing.ok_of_bind moved
  have here := connection_ok found
  split at moved
  · cases moved
  · rename_i fromSeq toSeq unacked stage
    obtain rfl := Except.ok.inj moved
    refine backed.enqueueControl here ?_ ?_ ?_
    · exact ⟨rfl, rfl, rfl⟩
    · exact fun promised => promised_stage promised (Or.inr fun none =>
        nomatch stage.symm.trans none) fun _ _ other => nomatch Option.some.inj other
    · intro msg member id listed
      rw [listedIn_catchup member] at listed
      cases listed
  · rename_i unacked stage
    have known : conn.handshake ≠ none := fun none => nomatch stage.symm.trans none
    split_ifs at moved with nothing
    · obtain rfl := Except.ok.inj moved
      refine backed.enqueueControl here ?_ ?_ ?_
      · exact ⟨rfl, rfl, rfl⟩
      · exact fun promised => promised_stage promised (Or.inr known) fun _ _ none => nomatch none
      · intro msg member id listed
        rw [List.mem_singleton.mp member] at listed
        cases listed
    · obtain rfl := Except.ok.inj moved
      refine backed.setConnection here rfl rfl rfl fun promised =>
        promised_stage promised (Or.inr known) fun reported ids same id member => ?_
      obtain ⟨-, rfl⟩ := HandshakeStage.found.inj (Option.some.inj same)
      exact rows id (durable_of_found member)
  · rename_i unacked durablyExisting stage
    obtain rfl := Except.ok.inj moved
    have recorded : Backed durable listed { s with
        listings := s.listings ++ [(conn.client, conn.generation, s.server.coordinator.engine)] } :=
      backed.congr rfl rfl rfl
    have promised := backed.promised conn (List.mem_of_getElem? here)
    refine recorded.enqueueControl here ?_ ?_ ?_
    · exact ⟨rfl, rfl, rfl⟩
    · exact fun promised => promised_stage promised (Or.inr fun none =>
        nomatch stage.symm.trans none) fun _ _ none => nomatch none
    · intro msg member id listed
      rw [List.mem_singleton.mp member] at listed
      rcases List.mem_append.mp listed with row | newer
      · exact both _ _ id (promised.found unacked durablyExisting stage id row)
      · have applied := (List.mem_filter.mp newer).2
        rw [Bool.and_eq_true] at applied
        exact live conn unacked durablyExisting here stage id applied.2

/-- The other sessions get a frame of operations, which acknowledges nothing. -/
theorem broadcast (backed : s.Backed durable listed) (relays : List Relay) :
    (s.broadcast relays).Backed durable listed := by
  refine backed.reconnect (.foldl _ (fun connections relay => .of_getElem? (fun k conn =>
    if k = relay.origin then conn else conn.enqueueOps (.ops relay.seq relay.ops)) (fun k => ?_)
    fun k conn here => ?_) relays s.connections)
  · rw [relayTo, List.getElem?_mapIdx]
  · split_ifs with origin
    · exact ⟨rfl, rfl, rfl, fun promised => promised⟩
    · obtain ⟨opsQueue, same⟩ := conn.enqueueOps_eq (.ops relay.seq relay.ops)
      refine ⟨?_, ?_, ?_, fun promised => promised.enqueueOps nofun⟩ <;> rw [same]

/-- A frame of operations for a session. -/
theorem enqueueOps (backed : s.Backed durable listed) {k : Nat} {conn conn' : Connection}
    (here : s.connections[k]? = some conn) (tag : conn'.client = conn.client ∧
      conn'.generation = conn.generation ∧ conn'.opened = conn.opened)
    (kept : conn.Promised durable (listed conn.client conn.generation) →
      conn'.Promised durable (listed conn.client conn.generation))
    {msg : OpsFrameMessage} (acked : ∀ id ∈ ackedIn msg, durable id) :
    (s.setConnection k (conn'.enqueueOps msg)).Backed durable listed := by
  obtain ⟨opsQueue, same⟩ := conn'.enqueueOps_eq msg
  refine backed.setConnection here ?_ ?_ ?_ fun promised => (kept promised).enqueueOps acked
  · rw [same]
    exact tag.1
  · rw [same]
    exact tag.2.1
  · rw [same]
    exact tag.2.2

/-- A frame is refused, or goes through the write path. -/
theorem receive (backed : s.Backed durable listed) {k j nowMs : Nat}
    {refusal : Option (RejectReason × String)}
    (moved : s.receive k j refusal nowMs = .ok s') : s'.Backed durable listed := by
  obtain ⟨conn, found, moved⟩ := Throwing.ok_of_bind moved
  have here := connection_ok found
  split at moved
  case h_2 => cases moved
  rename_i replicaId ops session waiting
  have taken : conn.Promised durable (listed conn.client conn.generation) →
      Connection.Promised durable (listed conn.client conn.generation)
        { conn with toServer := conn.toServer.eraseIdx j } := fun promised =>
    ⟨promised.batch, promised.acks, promised.found, promised.lists, promised.silent⟩
  have rejected : ∀ (reason : RejectReason) (detail : String),
      (s.setConnection k ({ conn with toServer := conn.toServer.eraseIdx j }.enqueueOps
        (.opReject (ops.map fun op : Operation => (op.id, reason)) detail))).Backed
          durable listed := by
    intro reason detail
    refine backed.enqueueOps here ?_ ?_ ?_
    · exact ⟨rfl, rfl, rfl⟩
    · exact taken
    · exact nofun
  simp only at moved
  split at moved
  · obtain rfl := Except.ok.inj moved
    exact backed.setConnection here rfl rfl rfl taken
  · obtain rfl := Except.ok.inj moved
    exact rejected _ _
  · split_ifs at moved
    · obtain rfl := Except.ok.inj moved
      exact rejected _ _
    · obtain ⟨⟨coordinator, relays⟩, processed, done⟩ := Throwing.ok_of_bind moved
      obtain rfl := Except.ok.inj done
      have kept : (s.setConnection k
          { conn with toServer := conn.toServer.eraseIdx j }).Backed durable listed :=
        backed.setConnection here rfl rfl rfl taken
      refine Backed.broadcast ?_ relays
      exact kept.congr rfl rfl rfl

theorem onServer (backed : s.Backed durable listed) {event : ServerEvent}
    (moved : s.onServer event = .ok s') : s'.Backed durable listed := by
  obtain ⟨server, -, done⟩ := Throwing.ok_of_bind moved
  obtain rfl := Except.ok.inj done
  exact backed.congr rfl rfl rfl

/-- The acknowledged operations of a commit. -/
theorem acksOf_mem {q : CommitQueue} {i : Nat} {ack : Identifier × Nat}
    (member : ack ∈ (acksOf q i).2) : ∃ op ∈ Server.opsOf q i, op.id = ack.1 := by
  unfold acksOf at member
  split at member
  · rename_i c entry
    have named : Server.opsOf q i = c.ops := by
      unfold Server.opsOf
      simp only [entry]
    rw [named]
    obtain ⟨row, inside, rfl⟩ := List.mem_map.mp member
    exact ⟨row.2, mem_of_numberedFrom inside, rfl⟩
  · cases member

/-- A commit is acknowledged to its session. -/
theorem succeed (backed : s.Backed durable listed) {q : CommitQueue} {i : Nat}
    (acks : ∀ op ∈ Server.opsOf q i, durable op.id) : Backed durable listed { s with
      connections := s.connections.modify (acksOf q i).1
        (Connection.addAcks · (acksOf q i).2) } := by
  refine backed.reconnect (follows_modify _ fun conn here => ?_)
  obtain ⟨ackBatch, same⟩ := conn.addAcks_eq (acksOf q i).2
  refine ⟨?_, ?_, ?_, fun promised => promised.addAcks fun ack member => ?_⟩
  · rw [same]
  · rw [same]
  · rw [same]
  · obtain ⟨op, inside, named⟩ := acksOf_mem member
    exact named ▸ acks op inside

/-- The sweep takes operations out of the buffer, and tells their sessions. -/
theorem sweep (backed : s.Backed durable listed) (settings : Settings) (nowMs : Nat) :
    (s.sweep settings nowMs).Backed durable listed := by
  unfold Collaboration.sweep
  generalize SweepState.runOneDocument _ _ _ _ = outcome
  obtain ⟨state, evicted, rejects⟩ := outcome
  have emptied : Backed durable listed { s with
      server := { s.server with coordinator := state.coordinator }
      pendingFirstSeenAtMs := state.pendingFirstSeenAtMs } := backed.congr rfl rfl rfl
  refine emptied.reconnect (.foldl _ (fun connections reject =>
    follows_modify reject.session fun conn here => ?_) rejects s.connections)
  obtain ⟨opsQueue, same⟩ := conn.enqueueOps_eq
    (.opReject (reject.rejectedIds.map fun id => (id, reject.reason)) reject.detail)
  refine ⟨?_, ?_, ?_, fun promised => promised.enqueueOps nofun⟩ <;> rw [same]

/-- The process is gone, and with it everything that was not sent. -/
theorem crashed (backed : s.Backed durable listed) :
    Backed durable listed { s with connections := s.connections.map Connection.crash } :=
  backed.reconnect (.of_getElem? (fun _ conn => conn.crash) (fun _ => List.getElem?_map)
    fun _ _ _ => ⟨rfl, rfl, rfl, fun promised => promised.crash⟩)

/-! ### Every event -/

/-- The promises are kept as long as the predicates grow, the rows are durable, what is durable may
be listed, and what the live engine has applied may be listed when it is asked. -/
theorem step {settings : Settings} (backed : s.Backed durable listed) {event : CollaborationEvent}
    (moved : s.step settings event = .ok s') (lasting : ∀ id, durable id → durable' id)
    (kept : ∀ i generation id, listed i generation id → listed' i generation id)
    (rows : ∀ id, s.server.store.Durable id → durable' id)
    (both : ∀ i generation id, durable' id → listed' i generation id)
    (live : ∀ k, event = .handshake k → ∀ conn unacked ids, s.connections[k]? = some conn →
      conn.handshake = some (.found unacked ids) → ∀ id,
      s.server.coordinator.engine.hasApplied id = true → listed' conn.client conn.generation id)
    (acks : ∀ i, event = .succeed i →
      ∀ op ∈ Server.opsOf s.server.coordinator.queue i, durable' op.id) :
    s'.Backed durable' listed' := by
  replace backed := backed.mono lasting kept
  cases event with
  | connect i nowMs =>
      obtain rfl := Except.ok.inj moved
      exact backed.openSocket i ⟨rfl, rfl⟩
  | reopen i =>
      obtain rfl := Except.ok.inj moved
      exact backed.openSocket i ⟨rfl, rfl⟩
  | opened k =>
      obtain ⟨conn, found, moved⟩ := Throwing.ok_of_bind moved
      split_ifs at moved with current
      obtain rfl := Except.ok.inj moved
      exact backed.opened (connection_ok found) current.1 current.2
  | closing i =>
      obtain rfl := Except.ok.inj moved
      exact backed.letGo i (c := { s.clients i with ws := some .CLOSING }) ⟨rfl, rfl⟩
        fun _ _ socket => socket
  | closed i nowMs =>
      obtain rfl := Except.ok.inj moved
      exact backed.closeSocket i ⟨rfl, rfl⟩
  | disconnect i nowMs =>
      obtain rfl := Except.ok.inj moved
      exact backed.closeSocket i ⟨rfl, rfl⟩
  | edit i call nowMs =>
      obtain rfl := Except.ok.inj moved
      exact backed.setClient i rfl fun _ _ chained => Or.inl chained
  | discardRejected i =>
      obtain rfl := Except.ok.inj moved
      exact backed.setClient i rfl fun _ _ chained => Or.inl chained
  | deliver k => exact backed.deliver moved
  | gate i nowMs =>
      obtain ⟨c', ran, done⟩ := Throwing.ok_of_bind moved
      obtain rfl := Except.ok.inj done
      exact backed.gate ran
  | hello k role => exact backed.handleHandshake moved
  | handshake k => exact backed.continueHandshake rows both (live k rfl) moved
  | receive k j refusal nowMs => exact backed.receive moved
  | flushAcks k =>
      obtain ⟨conn, found, done⟩ := Throwing.ok_of_bind moved
      obtain rfl := Except.ok.inj done
      have here := connection_ok found
      have promised := backed.promised conn (List.mem_of_getElem? here)
      refine backed.enqueueOps here ?_ ?_ ?_
      · exact ⟨rfl, rfl, rfl⟩
      · exact fun promised => ⟨nofun, promised.acks, promised.found, promised.lists,
          promised.silent⟩
      · intro id member
        obtain ⟨ack, inside, rfl⟩ := List.mem_map.mp member
        exact promised.batch ack inside
  | drain k =>
      obtain ⟨conn, found, moved⟩ := Throwing.ok_of_bind moved
      split at moved
      · rename_i frame conn' next
        obtain rfl := Except.ok.inj moved
        obtain ⟨opsQueue, controlQueue, same, -⟩ := Connection.nextFrame_spec next
        exact backed.setConnection (connection_ok found) (by rw [same]) (by rw [same])
          (by rw [same]) fun promised => promised.drain next
      · cases moved
  | leave k =>
      obtain ⟨conn, found, done⟩ := Throwing.ok_of_bind moved
      obtain rfl := Except.ok.inj done
      exact backed.setConnection (connection_ok found) rfl rfl rfl fun promised => promised.leave
  | permissionChanged k role =>
      obtain ⟨conn, found, done⟩ := Throwing.ok_of_bind moved
      obtain rfl := Except.ok.inj done
      refine backed.enqueueControl (connection_ok found) ⟨rfl, rfl, rfl⟩ (fun promised => promised)
        fun msg member id listed => ?_
      rw [List.mem_singleton.mp member] at listed
      cases listed
  | sweep nowMs =>
      obtain rfl := Except.ok.inj moved
      exact backed.sweep settings nowMs
  | start i => exact backed.onServer moved
  | land i now => exact backed.onServer moved
  | succeed i =>
      obtain ⟨next, stepped, done⟩ := Throwing.ok_of_bind moved
      obtain rfl := Except.ok.inj done
      exact (backed.onServer stepped).succeed (acks i rfl)
  | fail i => exact backed.onServer moved
  | capture => exact backed.onServer moved
  | writeSnapshot k => exact backed.onServer moved
  | restart nextReplicaId =>
      obtain ⟨next, stepped, done⟩ := Throwing.ok_of_bind moved
      obtain rfl := Except.ok.inj done
      exact ((backed.onServer stepped).crashed).congr rfl rfl rfl

/-- What leaves the queues in one event was acknowledged or listed. -/
theorem dropped_at_client {settings : Settings} (backed : s.Backed durable listed)
    {event : CollaborationEvent} (moved : s.step settings event = .ok s')
    (place : event.atClient = true) {client generation : Nat} {id : Identifier} {cause : DropCause}
    (member : (client, generation, id, cause) ∈ s'.dropped) :
    (client, generation, id, cause) ∈ s.dropped ∨ match cause with
      | .opAck => durable id
      | .alreadyHave => listed client generation id := by
  cases event <;> try cases place
  case deliver k =>
    obtain ⟨conn, frame, wire, here, onWire, -, ⟨-, rfl⟩ | ⟨-, c', -, rfl⟩⟩ := deliver_cases moved
    · exact Or.inl member
    · rcases List.mem_append.mp member with old | new
      · exact Or.inl old
      · obtain ⟨stamp, inside, same⟩ := List.mem_map.mp new
        obtain ⟨-, -, rfl, rfl⟩ : _ ∧ _ ∧ stamp = id ∧ DropCause.opAck = cause := by
          simpa using same
        exact Or.inr (backed.acked here onWire inside)
  case gate i nowMs =>
    obtain ⟨c', -, done⟩ := Throwing.ok_of_bind moved
    obtain rfl := Except.ok.inj done
    rcases List.mem_append.mp member with old | new
    · exact Or.inl old
    · obtain ⟨stamp, inside, same⟩ := List.mem_map.mp new
      obtain ⟨rfl, rfl, rfl, rfl⟩ : i = client ∧ (s.clients i).handshakeGeneration = generation ∧
          stamp = id ∧ DropCause.alreadyHave = cause := by simpa using same
      exact Or.inr (backed.listedNow inside)
  case opened k =>
    obtain ⟨conn, -, done⟩ := Throwing.ok_of_bind moved
    split_ifs at done
    obtain rfl := Except.ok.inj done
    exact Or.inl member
  all_goals
    obtain rfl := Except.ok.inj moved
    exact Or.inl member

theorem dropped {settings : Settings} (backed : s.Backed durable listed)
    {event : CollaborationEvent} (moved : s.step settings event = .ok s')
    {client generation : Nat} {id : Identifier} {cause : DropCause}
    (member : (client, generation, id, cause) ∈ s'.dropped) :
    (client, generation, id, cause) ∈ s.dropped ∨ match cause with
      | .opAck => durable id
      | .alreadyHave => listed client generation id := by
  by_cases place : event.atClient = true
  · exact backed.dropped_at_client moved place member
  · rw [(at_server moved (Bool.eq_false_iff.mpr place)).1.2.1] at member
    exact Or.inl member

end Backed

end Collaboration

end ConfluenceEditor
