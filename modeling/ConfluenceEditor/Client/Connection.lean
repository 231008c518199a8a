/-
The life of the client's connection.

`ClientConnection` adds to `ConnectedClient` what decides when a socket is opened and when the
handshake is finished: the flags of `connect` and `disconnect`, the storage and the tickets that are
waited for, the reconnect timer, the ping interval and the identity of the current socket. Each
continuation is an event of its own and runs at any later time, the jobs of the handshake's gate in
any order. The events of a socket that is not the current one are ignored, and so are jobs of an
earlier handshake; but a ticket, the storage or a timer that arrives late opens a socket whatever
happened meanwhile, and a job of a handshake whose socket is gone still finishes it.
`connection_sound` says when all is well.
-/

import ConfluenceEditor.Client.Handshake
import ConfluenceEditor.Client.Recording
import ConfluenceEditor.Library.Run

namespace ConfluenceEditor

/-! ### Timers -/

/-- A field that holds the handle of a timer, and the timers that were set through it and are live. -/
structure TimerField where
  handle : Option Nat
  live : List Nat
  next : Nat
  deriving DecidableEq, Repr

namespace TimerField

def unset : TimerField := ⟨none, [], 0⟩

/-- The handle is replaced; the timer that it held before stays live. -/
def set (t : TimerField) : TimerField := ⟨some t.next, t.next :: t.live, t.next + 1⟩

/-- Clear the timer that the handle holds, if any. -/
def clear (t : TimerField) : TimerField :=
  match t.handle with
  | none => t
  | some id => { t with handle := none, live := t.live.erase id }

/-- A one-shot timer is spent; its handle stays where it is. -/
def fire (t : TimerField) (id : Nat) : TimerField := { t with live := t.live.erase id }

/-- At most one timer is live, and the handle holds it. -/
def Tidy (t : TimerField) : Prop := ∀ id ∈ t.live, t.handle = some id ∧ t.live = [id]

variable {t : TimerField}

theorem tidy_of_empty (empty : t.live = []) : t.Tidy := by
  intro id member
  rw [empty] at member
  cases member

theorem Tidy.clear_live (tidy : t.Tidy) : t.clear.live = [] := by
  unfold clear
  cases shape : t.live with
  | nil => split <;> simp [shape]
  | cons id live =>
      obtain ⟨held, single⟩ := tidy id (shape ▸ List.mem_cons_self)
      rw [held]
      show (id :: live).erase id = []
      rw [← shape, single]
      exact List.erase_cons_head ..

theorem Tidy.length (tidy : t.Tidy) : t.live.length ≤ 1 := by
  cases shape : t.live with
  | nil => exact Nat.zero_le _
  | cons id live =>
      obtain ⟨-, single⟩ := tidy id (shape ▸ List.mem_cons_self)
      rw [← shape, single]
      exact Nat.le_refl _

theorem tidy_set (empty : t.live = []) : t.set.Tidy := by
  intro id member
  rw [set, empty] at member ⊢
  rw [List.mem_singleton.mp member]
  exact ⟨rfl, rfl⟩

theorem length_set (empty : t.live = []) : t.set.live.length = 1 := by
  rw [set, empty]
  rfl

end TimerField

/-! ### The client -/

/-- What the client was constructed with. -/
structure SyncClientOptions where
  /-- `fetchTicket` is given: every socket waits for its ticket. -/
  fetchesTickets : Bool
  /-- `openDurableQueue` returns a promise. -/
  opensStorageLater : Bool
  deriving DecidableEq, Repr

/-- What the durable queue gives back: the unacknowledged operations, and `lastServerSeq` of its
metadata. -/
structure Restored where
  unacked : List Operation
  lastServerSeq : Option Nat

structure ClientConnection where
  client : ConnectedClient
  explicitlyOffline : Bool
  durableInitStarted : Bool
  /-- `finishAsyncDurableInit` waits for the storage. -/
  durableInit : Bool
  /-- The tickets that are waited for. -/
  fetches : Nat
  reconnectTimer : TimerField
  pingTimer : TimerField
  /-- The identity of `ws`, and the number of sockets that were created. -/
  socket : Option Nat
  created : Nat
  /-- The socket whose open event began the latest handshake. -/
  handshakeSocket : Option Nat
  /-- The socket over which a handshake was finished last. -/
  completed : Option Nat

namespace ClientConnection

def new : ClientConnection where
  client := .new
  explicitlyOffline := true
  durableInitStarted := false
  durableInit := false
  fetches := 0
  reconnectTimer := .unset
  pingTimer := .unset
  socket := none
  created := 0
  handshakeSocket := none
  completed := none

/-- The new socket becomes the current one. -/
def openSocketNow (s : ClientConnection) : ClientConnection :=
  { s with client := s.client.openSocketNow, socket := some s.created, created := s.created + 1 }

def openSocket (o : SyncClientOptions) (s : ClientConnection) : ClientConnection :=
  if o.fetchesTickets then { s with fetches := s.fetches + 1 } else s.openSocketNow

def beginConnect (o : SyncClientOptions) (s : ClientConnection) : ClientConnection :=
  if s.durableInitStarted then s.openSocket o
  else
    let s := { s with durableInitStarted := true }
    if o.opensStorageLater then { s with durableInit := true } else s.openSocket o

def connect (o : SyncClientOptions) (s : ClientConnection) (nowMs : Nat) : ClientConnection :=
  { s with
    explicitlyOffline := false
    client := s.client.setState
      (if s.client.everSynced then .reconnecting else .connecting) nowMs }.beginConnect o

/-- The storage was read, or it is not available. -/
def finishAsyncDurableInit (o : SyncClientOptions) (s : ClientConnection)
    (durable : Option Restored) : ClientConnection :=
  let client := match durable with
    | none => s.client
    | some restored => { s.client with
        unacked := restored.unacked.foldl UnackedQueue.add s.client.unacked
        highestAppliedSeq := restored.lastServerSeq.getD s.client.highestAppliedSeq }
  { s with client, durableInit := false }.openSocket o

def clearPerConnectionTimers (s : ClientConnection) : ClientConnection :=
  { s with pingTimer := s.pingTimer.clear }

def clearAllTimers (s : ClientConnection) : ClientConnection :=
  { s.clearPerConnectionTimers with reconnectTimer := s.reconnectTimer.clear }

def disconnect (s : ClientConnection) (nowMs : Nat) : ClientConnection :=
  { s.clearAllTimers with
    explicitlyOffline := true
    client := s.client.disconnect nowMs
    socket := none }

def onOpen (s : ClientConnection) : ClientConnection :=
  { s with client := s.client.onOpen.1, handshakeSocket := s.socket }

def scheduleReconnect (s : ClientConnection) : ClientConnection :=
  { s with reconnectTimer := s.reconnectTimer.set }

def onClose (s : ClientConnection) (nowMs : Nat) : ClientConnection :=
  let s := { s.clearPerConnectionTimers with socket := none }
  if s.explicitlyOffline then
    { s with client := { s.client with ws := none }.setState .offline nowMs }
  else { s with client := s.client.onClose nowMs }.scheduleReconnect

def startPingTimer (s : ClientConnection) : ClientConnection :=
  { s with pingTimer := s.pingTimer.set }

/-- A handler that throws leaves the client as it was. -/
def handleControl (s : ClientConnection) (msg : ControlMessage) : ClientConnection :=
  match s.client.handleControl msg with
  | .ok client => { s with client }
  | .error _ => s

/-- The ping interval starts where the method gets to its end. -/
def finishHandshakeAfterAlreadyHave (s : ClientConnection) (alreadyHave : List Identifier)
    (nowMs : Nat) : ClientConnection :=
  match s.client.finishHandshakeAfterAlreadyHave alreadyHave nowMs with
  | .error _ => s
  | .ok client =>
      if s.client.engine.isNone ∨ s.client.ws = some .CONNECTING then { s with client }
      else { s with client, completed := s.handshakeSocket }.startPingTimer

/-- A job runs unless its handshake is not the latest one. -/
def runJob (s : ClientConnection) (nowMs : Nat) : Nat × GateJob → ClientConnection
  | (generation, job) =>
      if generation ≠ s.client.handshakeGeneration then s
      else
        match job with
        | .alreadyHave alreadyHave => s.finishHandshakeAfterAlreadyHave alreadyHave nowMs
        | job =>
            match s.client.runJob nowMs job with
            | .ok client => { s with client }
            | .error _ => s

inductive Event where
  | connect (nowMs : Nat)
  | disconnect (nowMs : Nat)
  | ticketFetched
  | storageOpened (durable : Option Restored)
  | reconnectDue (id : Nat)
  | socketOpened (socket : Nat)
  | socketClosed (socket nowMs : Nat)
  | frame (socket : Nat) (msg : ControlMessage)
  /-- The job that stands at this place of the gate takes its turn. -/
  | job (place nowMs : Nat)

/-- An event that cannot occur in the state is an error. -/
def step (o : SyncClientOptions) (s : ClientConnection) : Event → Except String ClientConnection
  | .connect nowMs => .ok (s.connect o nowMs)
  | .disconnect nowMs => .ok (s.disconnect nowMs)
  | .ticketFetched =>
      if s.fetches = 0 then .error "no ticket is waited for"
      else .ok { s with fetches := s.fetches - 1 }.openSocketNow
  | .storageOpened durable =>
      if s.durableInit then .ok (s.finishAsyncDurableInit o durable)
      else .error "the storage is not waited for"
  | .reconnectDue id =>
      if id ∈ s.reconnectTimer.live then
        .ok ({ s with reconnectTimer := s.reconnectTimer.fire id }.openSocket o)
      else .error "the timer is not live"
  | .socketOpened socket =>
      if s.socket ≠ some socket then .ok s
      else if s.client.ws = some .CONNECTING then .ok s.onOpen
      else .error "the socket is open already"
  | .socketClosed socket nowMs =>
      if s.socket ≠ some socket then .ok s else .ok (s.onClose nowMs)
  | .frame socket msg =>
      if s.socket ≠ some socket then .ok s
      else if s.client.ws = some .OPEN then .ok (s.handleControl msg)
      else .error "the socket is not open"
  | .job place nowMs =>
      match s.client.handshakeGate[place]? with
      | none => .error "no such job"
      | some job =>
          let handshakeGate := s.client.handshakeGate.eraseIdx place
          .ok ({ s with client := { s.client with handshakeGate } }.runJob nowMs job)

/-! ### The property -/

/-- A synced client has an open socket whose own handshake is complete, a disconnected client stays
offline without a socket, and one ping interval is live at most. A socket is open from its open event
to its close event. -/
structure Healthy (s : ClientConnection) : Prop where
  synced : s.client.state = .synced →
    ∃ k, s.socket = some k ∧ s.client.ws = some .OPEN ∧ s.completed = some k
  offline : s.explicitlyOffline = true → s.client.state = .offline ∧ s.socket = none
  pings : s.pingTimer.live.length ≤ 1

/-- The gate holds the end of this handshake. -/
def finishes (generation : Nat) : Nat × GateJob → Bool
  | (g, .alreadyHave _) => g == generation
  | _ => false

/-- The number of deferred continuations that will finish the latest handshake. -/
def finishing (s : ClientConnection) : Nat :=
  s.client.handshakeGate.countP (finishes s.client.handshakeGeneration)

/-- Neither a socket nor anything that will open one. -/
structure Idle (s : ClientConnection) : Prop where
  socket : s.socket = none
  durableInit : s.durableInit = false
  fetches : s.fetches = 0
  reconnects : s.reconnectTimer.live = []

instance (s : ClientConnection) : Decidable s.Idle :=
  decidable_of_iff (s.socket = none ∧ s.durableInit = false ∧ s.fetches = 0 ∧
    s.reconnectTimer.live = [])
    ⟨fun h => ⟨h.1, h.2.1, h.2.2.1, h.2.2.2⟩, fun h => ⟨h.1, h.2, h.3, h.4⟩⟩

/-- The frame of which the end of the handshake is deferred. -/
def endsHandshake : ControlMessage → Bool
  | .alreadyHave _ => true
  | _ => false

/-- `connect` is called when nothing is under way, `disconnect` when neither a ticket nor the storage
is waited for; the connection does not end while the end of its handshake is deferred; and the server
sends ALREADY_HAVE once in a handshake. -/
def Careful (s : ClientConnection) : Event → Prop
  | .connect _ => s.Idle
  | .disconnect _ => s.durableInit = false ∧ s.fetches = 0 ∧ s.finishing = 0
  | .socketClosed socket _ => s.socket = some socket → s.finishing = 0
  | .frame socket msg => s.socket = some socket ∧ endsHandshake msg = true →
      s.finishing = 0 ∧ s.client.state ≠ .synced
  | _ => True

instance (s : ClientConnection) (event : Event) : Decidable (s.Careful event) := by
  cases event <;> unfold Careful <;> infer_instance

/-! ### The invariant -/

/-- There is a socket or one thing that will open one, never two; the timers are tidy; the client is
synced and pings only over an open socket whose handshake is complete; and the end of the handshake is
deferred only while the socket is open and the client is not synced. -/
structure Orderly (s : ClientConnection) : Prop where
  offline : s.explicitlyOffline = true → s.client.state = .offline ∧ s.Idle
  single : s.durableInit.toNat + s.fetches + s.reconnectTimer.live.length +
    s.socket.isSome.toNat ≤ 1
  line : s.socket.isSome = s.client.ws.isSome
  reconnect : s.reconnectTimer.Tidy
  ping : s.pingTimer.Tidy
  pinging : s.client.state ≠ .synced → s.pingTimer.live = []
  synced : s.client.state = .synced → s.client.ws = some .OPEN ∧ s.completed = s.socket
  opened : s.client.ws = some .OPEN → s.handshakeSocket = s.socket
  last : s.finishing ≤ 1
  deferred : s.finishing ≠ 0 → s.client.ws = some .OPEN ∧ s.client.state ≠ .synced

theorem orderly_new : Orderly new where
  offline _ := ⟨rfl, rfl, rfl, rfl, rfl⟩
  single := by decide
  line := rfl
  reconnect := TimerField.tidy_of_empty rfl
  ping := TimerField.tidy_of_empty rfl
  pinging _ := rfl
  synced := nofun
  opened := nofun
  last := by decide
  deferred := by decide

variable {s s' : ClientConnection}

theorem Orderly.healthy (orderly : Orderly s) : Healthy s where
  synced synced := by
    obtain ⟨isOpen, completed⟩ := orderly.synced synced
    have line := orderly.line
    rw [isOpen] at line
    obtain ⟨k, current⟩ := Option.isSome_iff_exists.mp line
    exact ⟨k, current, isOpen, completed.trans current⟩
  offline offline := ⟨(orderly.offline offline).1, (orderly.offline offline).2.socket⟩
  pings := orderly.ping.length

/-- Without a socket the client is not synced, and no end of a handshake is deferred. -/
theorem Orderly.apart (orderly : Orderly s) (gone : s.socket = none) :
    s.client.ws = none ∧ s.client.state ≠ .synced ∧ s.finishing = 0 := by
  have line := orderly.line
  rw [gone] at line
  have ws : s.client.ws = none := Option.not_isSome_iff_eq_none.mp (by rw [← line]; decide)
  refine ⟨ws, fun synced => ?_, by_contra fun deferred => ?_⟩
  · have isOpen := (orderly.synced synced).1
    rw [ws] at isOpen
    cases isOpen
  · have isOpen := (orderly.deferred deferred).1
    rw [ws] at isOpen
    cases isOpen

/-- A client that neither is synced nor is about to be. -/
theorem orderly_of_apart (connected : s.explicitlyOffline = false)
    (single : s.durableInit.toNat + s.fetches + s.reconnectTimer.live.length +
      s.socket.isSome.toNat ≤ 1)
    (line : s.socket.isSome = s.client.ws.isSome) (reconnect : s.reconnectTimer.Tidy)
    (quiet : s.pingTimer.live = []) (apart : s.client.state ≠ .synced)
    (opened : s.client.ws = some .OPEN → s.handshakeSocket = s.socket) (settled : s.finishing = 0) :
    Orderly s where
  offline offline := by
    rw [connected] at offline
    cases offline
  single := single
  line := line
  reconnect := reconnect
  ping := TimerField.tidy_of_empty quiet
  pinging _ := quiet
  synced synced := absurd synced apart
  opened := opened
  last := settled ▸ Nat.zero_le 1
  deferred deferred := absurd settled deferred

/-- A client that is connected, and where nothing is under way. -/
structure Ready (s : ClientConnection) : Prop where
  connected : s.explicitlyOffline = false
  idle : s.Idle
  ws : s.client.ws = none
  quiet : s.pingTimer.live = []
  apart : s.client.state ≠ .synced
  none : s.finishing = 0

theorem Ready.openSocketNow (ready : Ready s) : Orderly s.openSocketNow := by
  refine orderly_of_apart ready.connected ?_ rfl (TimerField.tidy_of_empty ready.idle.reconnects)
    ready.quiet ready.apart nofun ready.none
  show s.durableInit.toNat + s.fetches + s.reconnectTimer.live.length + 1 ≤ 1
  rw [ready.idle.durableInit, ready.idle.fetches, ready.idle.reconnects]
  exact Nat.le_refl _

/-- One thing is waited for. -/
theorem Ready.waits (ready : Ready s) (durableInitStarted : Bool) {durableInit : Bool} {fetches : Nat}
    (one : durableInit.toNat + fetches ≤ 1) :
    Orderly { s with durableInitStarted, durableInit, fetches } := by
  refine orderly_of_apart ready.connected ?_ ?_ (TimerField.tidy_of_empty ready.idle.reconnects)
    ready.quiet ready.apart (fun isOpen => ?_) ready.none
  · show durableInit.toNat + fetches + s.reconnectTimer.live.length + s.socket.isSome.toNat ≤ 1
    rw [ready.idle.reconnects, ready.idle.socket]
    exact one
  · show s.socket.isSome = s.client.ws.isSome
    rw [ready.idle.socket, ready.ws]
    rfl
  · cases ready.ws.symm.trans isOpen

theorem Ready.openSocket (ready : Ready s) (o : SyncClientOptions) : Orderly (s.openSocket o) := by
  unfold ClientConnection.openSocket
  split_ifs
  · refine ready.waits s.durableInitStarted ?_
    rw [ready.idle.durableInit, ready.idle.fetches]
    decide
  · exact ready.openSocketNow

theorem Ready.beginConnect (ready : Ready s) (o : SyncClientOptions) :
    Orderly (s.beginConnect o) := by
  have started : Ready { s with durableInitStarted := true } :=
    ⟨ready.connected, ⟨ready.idle.socket, ready.idle.durableInit, ready.idle.fetches,
      ready.idle.reconnects⟩, ready.ws, ready.quiet, ready.apart, ready.none⟩
  unfold ClientConnection.beginConnect
  split_ifs
  · exact ready.openSocket o
  · have one : true.toNat + s.fetches ≤ 1 := by
      rw [ready.idle.fetches]
      decide
    exact ready.waits true one
  · exact started.openSocket o

/-! ### One event -/

theorem Orderly.connect (orderly : Orderly s) (idle : s.Idle) (o : SyncClientOptions) (nowMs : Nat) :
    Orderly (s.connect o nowMs) := by
  obtain ⟨ws, apart, settled⟩ := orderly.apart idle.socket
  have start : Ready { s with
      explicitlyOffline := false
      client := s.client.setState
        (if s.client.everSynced then .reconnecting else .connecting) nowMs } := by
    refine ⟨rfl, ⟨idle.socket, idle.durableInit, idle.fetches, idle.reconnects⟩, ws,
      orderly.pinging apart, ?_, settled⟩
    show (if s.client.everSynced then ConnectionState.reconnecting else .connecting) ≠ .synced
    split_ifs <;> nofun
  exact start.beginConnect o

theorem Orderly.disconnect (orderly : Orderly s) (durableInit : s.durableInit = false)
    (fetches : s.fetches = 0) (settled : s.finishing = 0) (nowMs : Nat) :
    Orderly (s.disconnect nowMs) where
  offline _ := ⟨rfl, rfl, durableInit, fetches, orderly.reconnect.clear_live⟩
  single := by
    show s.durableInit.toNat + s.fetches + s.reconnectTimer.clear.live.length + 0 ≤ 1
    rw [durableInit, fetches, orderly.reconnect.clear_live]
    decide
  line := rfl
  reconnect := TimerField.tidy_of_empty orderly.reconnect.clear_live
  ping := TimerField.tidy_of_empty orderly.ping.clear_live
  pinging _ := orderly.ping.clear_live
  synced := nofun
  opened := nofun
  last := orderly.last
  deferred deferred := absurd settled deferred

/-- What opens a socket is all that is under way, and the client is connected. -/
theorem Orderly.ready (orderly : Orderly s)
    (waits : 1 ≤ s.durableInit.toNat + s.fetches + s.reconnectTimer.live.length)
    {durableInit : Bool} {fetches : Nat} {reconnectTimer : TimerField} {client : ConnectedClient}
    (off : durableInit = false) (no : fetches = 0) (empty : reconnectTimer.live = [])
    (ws : client.ws = s.client.ws) (state : client.state = s.client.state)
    (gate : client.handshakeGate = s.client.handshakeGate)
    (generation : client.handshakeGeneration = s.client.handshakeGeneration) :
    Ready { s with client, durableInit, fetches, reconnectTimer } := by
  have gone : s.socket = none := by
    have single := orderly.single
    cases shape : s.socket with
    | none => rfl
    | some k =>
        rw [shape, Option.isSome_some, Bool.toNat_true] at single
        omega
  obtain ⟨ws', apart, settled⟩ := orderly.apart gone
  refine ⟨Bool.eq_false_iff.mpr fun offline => ?_, ⟨gone, off, no, empty⟩, ws.trans ws',
    orderly.pinging apart, ?_, ?_⟩
  · have idle := (orderly.offline offline).2
    rw [idle.durableInit, idle.fetches, idle.reconnects] at waits
    exact absurd waits (by decide)
  · rw [state]
    exact apart
  · show client.handshakeGate.countP (finishes client.handshakeGeneration) = 0
    rw [gate, generation]
    exact settled

theorem Orderly.ticketFetched (orderly : Orderly s) (waits : s.fetches ≠ 0) :
    Orderly { s with fetches := s.fetches - 1 }.openSocketNow := by
  have single := orderly.single
  refine Ready.openSocketNow (orderly.ready (by omega) ?_ (by omega) ?_ rfl rfl rfl rfl)
  · cases shape : s.durableInit with
    | false => rfl
    | true =>
        rw [shape, Bool.toNat_true] at single
        omega
  · exact List.length_eq_zero_iff.mp (by omega)

theorem Orderly.storageOpened (orderly : Orderly s) (waits : s.durableInit = true)
    (o : SyncClientOptions) (durable : Option Restored) :
    Orderly (s.finishAsyncDurableInit o durable) := by
  have single := orderly.single
  rw [waits, Bool.toNat_true] at single
  have empty : s.reconnectTimer.live = [] := List.length_eq_zero_iff.mp (by omega)
  refine Ready.openSocket (orderly.ready ?_ rfl (by omega) empty ?_ ?_ ?_ ?_) o
  · rw [waits, Bool.toNat_true]
    omega
  all_goals cases durable <;> rfl

theorem Orderly.reconnectDue (orderly : Orderly s) {id : Nat} (live : id ∈ s.reconnectTimer.live)
    (o : SyncClientOptions) :
    Orderly ({ s with reconnectTimer := s.reconnectTimer.fire id }.openSocket o) := by
  have single := orderly.single
  obtain ⟨-, alone⟩ := orderly.reconnect id live
  rw [alone, List.length_singleton] at single
  refine Ready.openSocket (orderly.ready ?_ ?_ (by omega) ?_ rfl rfl rfl rfl) o
  · rw [alone, List.length_singleton]
    omega
  · cases shape : s.durableInit with
    | false => rfl
    | true =>
        rw [shape, Bool.toNat_true] at single
        omega
  · show s.reconnectTimer.live.erase id = []
    rw [alone]
    exact List.erase_cons_head ..

theorem Orderly.socketOpened (orderly : Orderly s) {k : Nat} (current : s.socket = some k)
    (connecting : s.client.ws = some .CONNECTING) : Orderly s.onOpen := by
  have apart : s.client.state ≠ .synced := fun synced => by
    have isOpen := (orderly.synced synced).1
    rw [connecting] at isOpen
    cases isOpen
  refine orderly_of_apart (Bool.eq_false_iff.mpr fun offline => ?_) orderly.single ?_
    orderly.reconnect
    (orderly.pinging apart) apart (fun _ => rfl) rfl
  · have gone := (orderly.offline offline).2.socket
    rw [current] at gone
    cases gone
  · show s.socket.isSome = true
    rw [current]
    rfl

theorem Orderly.socketClosed (orderly : Orderly s) {k : Nat} (current : s.socket = some k)
    (settled : s.finishing = 0) (nowMs : Nat) : Orderly (s.onClose nowMs) := by
  have connected : s.explicitlyOffline = false := Bool.eq_false_iff.mpr fun offline => by
    have gone := (orderly.offline offline).2.socket
    rw [current] at gone
    cases gone
  have single := orderly.single
  rw [current, Option.isSome_some, Bool.toNat_true] at single
  have empty : s.reconnectTimer.live = [] := List.length_eq_zero_iff.mp (by omega)
  have closed : s.onClose nowMs = { s.clearPerConnectionTimers with
      socket := none
      client := s.client.onClose nowMs }.scheduleReconnect := by
    show (if s.explicitlyOffline then _ else _) = _
    rw [connected]
    rfl
  rw [closed]
  refine orderly_of_apart connected ?_ rfl (TimerField.tidy_set empty) orderly.ping.clear_live nofun
    nofun settled
  show s.durableInit.toNat + s.fetches + s.reconnectTimer.set.live.length + 0 ≤ 1
  rw [TimerField.length_set empty]
  omega

/-! ### Frames and jobs -/

/-- Neither the socket nor the state is touched. -/
def SameLine (c c' : ConnectedClient) : Prop := c'.ws = c.ws ∧ c'.state = c.state

theorem sameLine_handleControl {c c' : ConnectedClient} {msg : ControlMessage}
    (handled : c.handleControl msg = .ok c') : SameLine c c' := by
  have controlled := ConnectedClient.controlled_of_handleControl handled
  generalize ConnectedClient.jobOf msg = job at controlled
  cases controlled <;> exact ⟨rfl, rfl⟩

theorem foldl_transmit_ws (sent : List (List Operation)) (c : SyncClient) :
    (sent.foldl SyncClient.transmit c).ws = c.ws := by
  induction sent generalizing c with
  | nil => rfl
  | cons ops sent ih => rw [List.foldl_cons, ih, SyncClient.transmit_ws]

theorem foldl_record_ws (ops : List Operation) (c : SyncClient) :
    (ops.foldl SyncClient.record c).ws = c.ws := by
  induction ops generalizing c with
  | nil => rfl
  | cons op ops ih =>
      rw [List.foldl_cons, ih]
      rfl

/-- The end of a handshake keeps the socket, and makes the client synced unless it has no engine or
its socket is still connecting. -/
theorem finish_line {c c' : ConnectedClient} {alreadyHave : List Identifier} {nowMs : Nat}
    (finished : c.finishHandshakeAfterAlreadyHave alreadyHave nowMs = .ok c') :
    c'.ws = c.ws ∧
      if c.engine.isNone ∨ c.ws = some .CONNECTING then c'.state = c.state
      else c'.state = .synced := by
  unfold ConnectedClient.finishHandshakeAfterAlreadyHave at finished
  split at finished
  · rename_i absent
    obtain rfl := Except.ok.inj finished
    exact ⟨rfl, by rw [if_pos (Or.inl (by rw [absent]; rfl))]⟩
  · rename_i e resident
    generalize c.settleHello alreadyHave = settled at finished
    obtain ⟨queue, toReconcile⟩ := settled
    obtain ⟨s, -, done⟩ := Throwing.ok_of_bind finished
    simp only at done
    have kept := foldl_record_ws s.resent
      { c with unacked := queue, engine := some s.engine }.toSyncClient
    split_ifs at done with connecting
    · obtain rfl := Except.ok.inj done
      exact ⟨kept, by rw [if_pos (Or.inr (kept.symm.trans connecting))]; rfl⟩
    · obtain rfl := Except.ok.inj done
      refine ⟨(foldl_transmit_ws ..).trans kept, ?_⟩
      rw [if_neg]
      · rfl
      · rintro (absent | early)
        · rw [resident] at absent
          cases absent
        · exact connecting (kept.trans early)

theorem sameLine_runJob {c c' : ConnectedClient} {job : GateJob} {nowMs : Nat}
    (other : ∀ alreadyHave, job ≠ .alreadyHave alreadyHave) (ran : c.runJob nowMs job = .ok c') :
    SameLine c c' := by
  cases job with
  | catchupChunk throughSeq ops =>
      simp only [ConnectedClient.runJob] at ran
      split_ifs at ran
      · obtain rfl := Except.ok.inj ran
        exact ⟨rfl, rfl⟩
      · obtain ⟨c₁, applied, done⟩ := Throwing.ok_of_bind ran
        obtain rfl := Except.ok.inj done
        obtain ⟨engine, waiting, rfl⟩ := ConnectedClient.applyChunk_frame applied
        exact ⟨rfl, rfl⟩
  | catchupEnd toSeq =>
      obtain rfl := Except.ok.inj ran
      exact ⟨rfl, rfl⟩
  | alreadyHave alreadyHave => exact absurd rfl (other alreadyHave)

/-- The client changes, but for its socket and its state. -/
theorem Orderly.congr (orderly : Orderly s) {client : ConnectedClient}
    (line : SameLine s.client client)
    (last : client.handshakeGate.countP (finishes client.handshakeGeneration) ≤ 1)
    (deferred : client.handshakeGate.countP (finishes client.handshakeGeneration) ≠ 0 →
      s.client.ws = some .OPEN ∧ s.client.state ≠ .synced) :
    Orderly { s with client } where
  offline offline := by
    obtain ⟨state, idle⟩ := orderly.offline offline
    exact ⟨line.2.trans state, idle.socket, idle.durableInit, idle.fetches, idle.reconnects⟩
  single := orderly.single
  line := line.1 ▸ orderly.line
  reconnect := orderly.reconnect
  ping := orderly.ping
  pinging apart := orderly.pinging (line.2 ▸ apart)
  synced synced := line.1 ▸ orderly.synced (line.2.symm.trans synced)
  opened isOpen := orderly.opened (line.1.symm.trans isOpen)
  last := last
  deferred := line.1 ▸ line.2 ▸ deferred

/-- No end of the handshake comes in addition. -/
theorem Orderly.fewer (orderly : Orderly s) {client : ConnectedClient}
    (line : SameLine s.client client)
    (fewer : client.handshakeGate.countP (finishes client.handshakeGeneration) ≤ s.finishing) :
    Orderly { s with client } :=
  orderly.congr line (le_trans fewer orderly.last) fun waits =>
    orderly.deferred fun settled => waits (Nat.le_zero.mp (settled ▸ fewer))

theorem Orderly.frame (orderly : Orderly s) {msg : ControlMessage}
    (isOpen : s.client.ws = some .OPEN)
    (once : endsHandshake msg = true → s.finishing = 0 ∧ s.client.state ≠ .synced) :
    Orderly (s.handleControl msg) := by
  unfold ClientConnection.handleControl
  split
  · rename_i client handled
    have line := sameLine_handleControl handled
    obtain ⟨gate, generation⟩ := ConnectedClient.handleControl_gate handled
    have count : client.handshakeGate.countP (finishes client.handshakeGeneration) =
        s.finishing + (endsHandshake msg).toNat := by
      rw [gate, generation, List.countP_append]
      congr 1
      cases msg <;> simp [ConnectedClient.jobOf, finishes, endsHandshake]
    cases ends : endsHandshake msg with
    | false =>
        rw [ends] at count
        exact orderly.fewer line (le_of_eq count)
    | true =>
        obtain ⟨settled, apart⟩ := once ends
        rw [ends, settled] at count
        exact orderly.congr line (le_of_eq count) fun _ => ⟨isOpen, apart⟩
  · exact orderly

/-- The end of a handshake whose socket is open. -/
theorem Orderly.finish (orderly : Orderly s) (isOpen : s.client.ws = some .OPEN)
    (apart : s.client.state ≠ .synced) (settled : s.finishing = 0) (alreadyHave : List Identifier)
    (nowMs : Nat) : Orderly (s.finishHandshakeAfterAlreadyHave alreadyHave nowMs) := by
  unfold ClientConnection.finishHandshakeAfterAlreadyHave
  split
  · exact orderly
  · rename_i client finished
    obtain ⟨ws, state⟩ := finish_line finished
    obtain ⟨gate, generation⟩ := ConnectedClient.sameGate_finish finished
    have count : client.handshakeGate.countP (finishes client.handshakeGeneration) = 0 := by
      rw [gate, generation]
      exact settled
    split_ifs with early
    · rw [if_pos early] at state
      exact orderly.fewer ⟨ws, state⟩ (count ▸ Nat.zero_le _)
    · rw [if_neg early] at state
      have quiet := orderly.pinging apart
      exact {
        offline := fun offline => by
          have gone := (orderly.apart (orderly.offline offline).2.socket).1
          rw [isOpen] at gone
          cases gone
        single := orderly.single
        line := ws ▸ orderly.line
        reconnect := orderly.reconnect
        ping := TimerField.tidy_set quiet
        pinging := fun other => absurd state other
        synced := fun _ => ⟨ws.trans isOpen, orderly.opened isOpen⟩
        opened := fun _ => orderly.opened isOpen
        last := le_of_eq_of_le count (Nat.zero_le 1)
        deferred := fun some => absurd count some }

theorem Orderly.job (orderly : Orderly s) {place : Nat} {job : Nat × GateJob}
    (there : s.client.handshakeGate[place]? = some job) (nowMs : Nat) :
    Orderly ({ s with client := { s.client with
      handshakeGate := s.client.handshakeGate.eraseIdx place } }.runJob nowMs job) := by
  have taken : s.finishing = (finishes s.client.handshakeGeneration job).toNat +
      (s.client.handshakeGate.eraseIdx place).countP (finishes s.client.handshakeGeneration) := by
    obtain ⟨inside, rfl⟩ := List.getElem?_eq_some_iff.mp there
    rw [finishing, ← (List.getElem_cons_eraseIdx_perm inside).countP_eq, List.countP_cons]
    cases finishes s.client.handshakeGeneration s.client.handshakeGate[place] <;> simp [Nat.add_comm]
  set s₁ : ClientConnection := { s with client := { s.client with
    handshakeGate := s.client.handshakeGate.eraseIdx place } } with popped
  have first : Orderly s₁ := orderly.fewer ⟨rfl, rfl⟩ (taken ▸ Nat.le_add_left ..)
  obtain ⟨generation, work⟩ := job
  simp only [ClientConnection.runJob]
  split
  · exact first
  · rename_i fresh
    split
    · rename_i alreadyHave
      have current : generation = s.client.handshakeGeneration := not_not.mp fresh
      have ends : finishes s.client.handshakeGeneration (generation, .alreadyHave alreadyHave) =
          true := beq_iff_eq.mpr current
      rw [ends, Bool.toNat_true] at taken
      obtain ⟨isOpen, apart⟩ := orderly.deferred (by omega)
      have last := orderly.last
      have settled : (s.client.handshakeGate.eraseIdx place).countP
          (finishes s.client.handshakeGeneration) = 0 := by omega
      exact first.finish isOpen apart settled alreadyHave nowMs
    · rename_i other
      split
      · rename_i client ran
        obtain ⟨gate, same⟩ := ConnectedClient.sameGate_runJob ran
        refine first.fewer (sameLine_runJob other ran) ?_
        rw [gate, same]
        exact Nat.le_refl _
      · exact first

theorem Orderly.step (orderly : Orderly s) {o : SyncClientOptions} {event : Event}
    (careful : s.Careful event) (stepped : s.step o event = .ok s') : Orderly s' := by
  cases event with
  | connect nowMs =>
      obtain rfl := Except.ok.inj stepped
      exact orderly.connect careful o nowMs
  | disconnect nowMs =>
      obtain rfl := Except.ok.inj stepped
      exact orderly.disconnect careful.1 careful.2.1 careful.2.2 nowMs
  | ticketFetched =>
      simp only [ClientConnection.step] at stepped
      split_ifs at stepped with waits
      obtain rfl := Except.ok.inj stepped
      exact orderly.ticketFetched waits
  | storageOpened durable =>
      simp only [ClientConnection.step] at stepped
      split_ifs at stepped with waits
      obtain rfl := Except.ok.inj stepped
      exact orderly.storageOpened waits o durable
  | reconnectDue id =>
      simp only [ClientConnection.step] at stepped
      split_ifs at stepped with live
      obtain rfl := Except.ok.inj stepped
      exact orderly.reconnectDue live o
  | socketOpened socket =>
      simp only [ClientConnection.step] at stepped
      split_ifs at stepped with other connecting
      · obtain rfl := Except.ok.inj stepped
        exact orderly
      · obtain rfl := Except.ok.inj stepped
        exact orderly.socketOpened (not_not.mp other) connecting
  | socketClosed socket nowMs =>
      simp only [ClientConnection.step] at stepped
      split_ifs at stepped with other
      · obtain rfl := Except.ok.inj stepped
        exact orderly
      · obtain rfl := Except.ok.inj stepped
        exact orderly.socketClosed (not_not.mp other) (careful (not_not.mp other)) nowMs
  | frame socket msg =>
      simp only [ClientConnection.step] at stepped
      split_ifs at stepped with other isOpen
      · obtain rfl := Except.ok.inj stepped
        exact orderly
      · obtain rfl := Except.ok.inj stepped
        exact orderly.frame isOpen fun ends => careful ⟨not_not.mp other, ends⟩
  | job place nowMs =>
      simp only [ClientConnection.step] at stepped
      split at stepped
      · cases stepped
      · rename_i job there
        obtain rfl := Except.ok.inj stepped
        exact orderly.job there nowMs

end ClientConnection

open ClientConnection

/-- **The connection's state.** In every run whose events come carefully, a synced client is connected
over an open socket whose own handshake is complete, a disconnected client stays offline and opens
nothing, and one ping interval is live at most. -/
theorem connection_sound (o : SyncClientOptions) {events : List Event}
    (careful : Run.Each (ClientConnection.step o) Careful ClientConnection.new events) :
    Run.Always (ClientConnection.step o) Healthy ClientConnection.new events :=
  (Run.always_of_each (fun _ _ _ orderly careful stepped => orderly.step careful stepped) orderly_new
    careful).imp fun _ orderly => orderly.healthy

/-- A client that connects, catches up after its connection was lost, and is disconnected. -/
def lostAndBack : List Event :=
  [.connect 0, .socketOpened 0, .frame 0 (.welcome 1 .EDITOR .SNAPSHOT), .frame 0 (.snapshot 0 []),
    .frame 0 (.alreadyHave []), .job 0 0, .socketClosed 0 10, .reconnectDue 0, .socketOpened 1,
    .frame 1 (.welcome 2 .EDITOR .CATCHUP), .frame 1 (.catchupBegin 0),
    .frame 1 (.catchupChunk 1 [.insert ⟨⟨1, 5⟩, 97, none, .R, false⟩]), .frame 1 (.catchupEnd 1),
    .frame 1 (.alreadyHave []), .job 0 20, .job 0 20, .job 0 20, .disconnect 30]

theorem connection_sound_lostAndBack :
    Run.Always (ClientConnection.step ⟨false, false⟩) Healthy ClientConnection.new lostAndBack :=
  connection_sound ⟨false, false⟩ (by decide)

/-- The second connection of a client is lost while a chunk keeps the end of its handshake waiting. -/
def lostMeanwhile : List Event :=
  lostAndBack.take 14 ++ [.socketClosed 1 20, .job 0 21, .job 0 21, .job 0 21]

/-- A client that is disconnected while it waits for its ticket. -/
def disconnectedMeanwhile : List Event := [.connect 0, .disconnect 1, .ticketFetched]

/-- `connect` is called while the reconnect timer is armed. -/
def connectedTwice : List Event :=
  lostAndBack.take 7 ++ [.connect 11, .socketOpened 1, .frame 1 (.welcome 2 .EDITOR .ALREADY_CURRENT),
    .frame 1 (.alreadyHave []), .job 0 12, .reconnectDue 0, .socketOpened 2,
    .frame 2 (.welcome 3 .EDITOR .ALREADY_CURRENT), .frame 2 (.alreadyHave []), .job 0 13]

/-- Each part of the property fails in some run: the client is synced without a socket, it opens a
socket after it was disconnected, and it has two ping intervals. -/
theorem connection_unsound :
    (¬ ∀ o events, Run.Always (ClientConnection.step o) (fun s => s.client.state = .synced →
      ∃ k, s.socket = some k ∧ s.client.ws = some .OPEN ∧ s.completed = some k)
      ClientConnection.new events) ∧
    (¬ ∀ o events, Run.Always (ClientConnection.step o) (fun s => s.explicitlyOffline = true →
      s.client.state = .offline ∧ s.socket = none) ClientConnection.new events) ∧
    ¬ ∀ o events, Run.Always (ClientConnection.step o) (fun s => s.pingTimer.live.length ≤ 1)
      ClientConnection.new events := by
  refine ⟨fun claim => ?_, fun claim => ?_, fun claim => ?_⟩
  · obtain ⟨s, ran, reached⟩ := Run.exists_of_ends
      (Run.run (ClientConnection.step ⟨false, false⟩) ClientConnection.new lostMeanwhile)
      (fun s => decide (s.client.state = .synced) && s.socket.isNone) (by decide)
    obtain ⟨synced, gone⟩ := Bool.and_eq_true_iff.mp reached
    obtain ⟨k, current, -⟩ := (claim _ lostMeanwhile).last ran (of_decide_eq_true synced)
    rw [current] at gone
    cases gone
  · obtain ⟨s, ran, reached⟩ := Run.exists_of_ends
      (Run.run (ClientConnection.step ⟨true, false⟩) ClientConnection.new disconnectedMeanwhile)
      (fun s => s.explicitlyOffline && s.socket.isSome) (by decide)
    obtain ⟨offline, opened⟩ := Bool.and_eq_true_iff.mp reached
    rw [((claim _ disconnectedMeanwhile).last ran offline).2] at opened
    cases opened
  · obtain ⟨s, ran, reached⟩ := Run.exists_of_ends
      (Run.run (ClientConnection.step ⟨false, false⟩) ClientConnection.new connectedTwice)
      (fun s => decide (2 ≤ s.pingTimer.live.length)) (by decide)
    have single := (claim _ connectedTwice).last ran
    exact absurd (le_trans (of_decide_eq_true reached) single) (by decide)

end ConfluenceEditor
