/-
The frames of a client before its connection is bound.

A client's sockets and the gateway that serves them. A socket begins with HELLO; what the end of a
handshake sends follows the gateway's own answer to it; but an edit, a presence update and a ping are
sent as soon as the socket is open, while the gateway takes every frame before the binding for the
first one, and closes the connection when that frame is not HELLO. `first_frames` says that nothing
else disturbs the admission: a connection is handed one HELLO, has one handler and is admitted with
one session at most.
-/

import ConfluenceEditor.Client.PresenceOverlay
import ConfluenceEditor.Client.Sockets
import ConfluenceEditor.Server.Bindings
import Mathlib.Algebra.GroupWithZero.Nat

namespace ConfluenceEditor

/-! ### The client and the gateway -/

/-- A frame of a client, by the method that sends it. All of them can be decoded, so the gateway
takes each for what it is. -/
inductive ClientFrame where
  | hello (msg : HelloMessage)
  /-- Operations that the end of a handshake sends again; SYNC_COMPLETE is behind them. -/
  | resent (ops : List Operation)
  | syncComplete (lastServerSeq resentCount : Nat)
  | edit (ops : List Operation)
  | presenceUpdate (position : PresencePosition)
  | ping (clientTimeMs lastAppliedSeq : Nat)
  deriving DecidableEq, Repr

namespace ClientFrame

def isHello : ClientFrame → Bool
  | .hello _ => true
  | _ => false

/-- The frame ends a handshake, so the gateway's own frames came before it. -/
def answers : ClientFrame → Bool
  | .resent _ | .syncComplete _ _ => true
  | _ => false

/-- The frame is sent whenever the user or the ping interval asks for it. -/
def unprompted : ClientFrame → Bool
  | .edit _ | .presenceUpdate _ | .ping _ _ => true
  | _ => false

theorem kinds (frame : ClientFrame) :
    frame.isHello = true ∨ frame.answers = true ∨ frame.unprompted = true := by
  cases frame with
  | hello msg => exact Or.inl rfl
  | resent _ | syncComplete _ _ => exact Or.inr (Or.inl rfl)
  | edit _ | presenceUpdate _ | ping _ _ => exact Or.inr (Or.inr rfl)

end ClientFrame

/-- A client, and the numbers that its sockets have among the connections of the gateway. -/
structure ClientSettings extends SyncClientOptions where
  documentId : String
  isClusterContinuing : Nat → Bool
  number : Nat → Nat
  socketOf : Nat → Option Nat
  numbered : ∀ socket k, socketOf k = some socket ↔ number socket = k

/-- A client and the gateway that serves it, among others. -/
structure ServedClient where
  client : ClientConnection
  /-- The frames that a socket transmitted and the gateway did not receive yet. -/
  wire : Nat → List ClientFrame
  gateway : WsGateway

namespace ServedClient

inductive Event where
  /-- The socket, the timers and the control frames of the client. -/
  | client (e : ClientConnection.Event)
  | opsFrame (socket : Nat) (msg : OpsFrameMessage)
  | edit (call : EditCall) (nowMs : Nat)
  | presence (position : PresencePosition)
  | pingDue (id nowMs : Nat)
  /-- The gateway receives the next frame of a socket. The rest is what it makes of a HELLO. -/
  | received (socket : Nat) (userId displayName : String) (passes : Bool)
  /-- Anything else that happens at the gateway. -/
  | gateway (e : WsEvent)

def start (auth : Bool) : ServedClient := ⟨.new, fun _ => [], .start auth⟩

/-- The connection that serves a socket. -/
def served (o : ClientSettings) (s : ServedClient) (socket : Nat) : WsConnection :=
  s.gateway.connections (o.number socket)

/-- `this.ws?.send`: frames leave through an open socket only. -/
def send (s : ServedClient) (frames : List ClientFrame) : ServedClient :=
  match s.client.socket with
  | none => s
  | some socket =>
      if s.client.client.ws = some .OPEN then
        { s with wire := Function.update s.wire socket (s.wire socket ++ frames) }
      else s

/-- What a job transmitted. The ping interval starts right behind SYNC_COMPLETE. -/
def sentByJob (before after : ClientConnection) : List ClientFrame :=
  let resent := after.client.transmitted.drop before.client.transmitted.length
  resent.map .resent ++
    if before.pingTimer.next < after.pingTimer.next then
      [.syncComplete after.client.highestAppliedSeq (resent.map List.length).sum]
    else []

def incoming (documentId userId displayName : String) (passes : Bool) : ClientFrame → IncomingFrame
  | .hello _ => .hello documentId userId displayName passes
  | _ => .other

/-- The socket of this client that an event of the gateway receives a frame from. -/
def source (o : ClientSettings) : WsEvent → Option Nat
  | .message k _ => o.socketOf k
  | _ => none

/-- The gateway sends frames over bound connections only. -/
def step (o : ClientSettings) (s : ServedClient) : Event → Except String ServedClient
  | .client (.socketOpened socket) => do
      let client ← s.client.step o.toSyncClientOptions (.socketOpened socket)
      if s.client.socket = some socket then
        .ok ({ s with client }.send [.hello s.client.client.onOpen.2])
      else .ok { s with client }
  | .client (.frame socket msg) =>
      if (s.served o socket).bound = none then .error "the gateway sends nothing"
      else do
        let client ← s.client.step o.toSyncClientOptions (.frame socket msg)
        .ok { s with client }
  | .client (.job place nowMs) => do
      let client ← s.client.step o.toSyncClientOptions (.job place nowMs)
      .ok ({ s with client }.send (sentByJob s.client client))
  | .client e => do
      let client ← s.client.step o.toSyncClientOptions e
      .ok { s with client }
  | .opsFrame socket msg =>
      if (s.served o socket).bound = none then .error "the gateway sends nothing"
      else if s.client.socket ≠ some socket then .ok s
      else
        match s.client.client.handleOpsMessage msg with
        | .ok client => .ok { s with client := { s.client with client } }
        | .error _ => .ok s
  | .edit call nowMs =>
      let client := { s.client with
        client := s.client.client.perform o.isClusterContinuing nowMs call }
      let sent := client.client.transmitted.drop s.client.client.transmitted.length
      .ok ({ s with client }.send (sent.map .edit))
  | .presence position => .ok (s.send [.presenceUpdate position])
  | .pingDue id nowMs =>
      if id ∈ s.client.pingTimer.live then
        .ok (s.send [.ping nowMs s.client.client.highestAppliedSeq])
      else .error "the timer is not live"
  | .received socket userId displayName passes =>
      match s.wire socket with
      | [] => .error "no frame is on its way"
      | frame :: later => do
          let gateway ← s.gateway.step
            (.message (o.number socket) (incoming o.documentId userId displayName passes frame))
          .ok { s with wire := Function.update s.wire socket later, gateway }
  | .gateway e =>
      match source o e with
      | some _ => .error "the frames of this client come over its sockets"
      | none => do
          let gateway ← s.gateway.step e
          .ok { s with gateway }

/-! ### The property -/

/-- No connection of the client is closed as malformed, and none has two handlers or two sessions. -/
structure Undisturbed (o : ClientSettings) (s : ServedClient) : Prop where
  wellFormed : ∀ socket, (s.served o socket).malformed = false
  handlers : ∀ socket, (s.served o socket).handlers.length ≤ 1
  admissions : ∀ socket, (s.served o socket).admissions ≤ 1

/-- An edit, a presence update or a ping comes to a connection that is bound, or is closing. -/
def InTurn (o : ClientSettings) (s : ServedClient) : Event → Prop
  | .received socket _ _ _ => ∀ frame ∈ (s.wire socket).head?, frame.unprompted = true →
      (s.served o socket).bound ≠ none ∨ (s.served o socket).readyState ≠ .OPEN
  | _ => True

instance (o : ClientSettings) (s : ServedClient) (e : Event) : Decidable (s.InTurn o e) := by
  cases e <;> unfold InTurn <;> infer_instance

/-! ### The invariant -/

/-- The socket has not been opened. -/
def Unopened (s : ServedClient) (socket : Nat) : Prop :=
  s.client.created ≤ socket ∨ s.client.socket = some socket ∧ s.client.client.ws = some .CONNECTING

def hellos (s : ServedClient) (socket : Nat) : Nat := (s.wire socket).countP ClientFrame.isHello

/-- A socket's HELLO is on its way, is being handled or has admitted the session, once in all; and
the end of a handshake is sent or about to be sent over bound connections only. -/
structure Sound (o : ClientSettings) (s : ServedClient) : Prop where
  handlers : ∀ socket, s.hellos socket + (s.served o socket).handlers.length ≤ 1
  admissions : ∀ socket,
    s.hellos socket + ((s.served o socket).admissions + (s.served o socket).waiting) ≤ 1
  unopened : ∀ socket, s.Unopened socket →
    s.wire socket = [] ∧ (s.served o socket).handlers = [] ∧ (s.served o socket).admissions = 0
  answered : ∀ socket, ∀ frame ∈ s.wire socket, frame.answers = true →
    (s.served o socket).bound ≠ none
  deferred : ∀ socket, s.client.socket = some socket → s.client.client.ws = some .OPEN →
    s.client.client.handshakeGate ≠ [] → (s.served o socket).bound ≠ none
  created : ∀ socket, s.client.socket = some socket → socket < s.client.created

variable {o : ClientSettings} {s s' : ServedClient}

theorem sound_start (auth : Bool) : Sound o (start auth) where
  handlers _ := Nat.zero_le 1
  admissions _ := Nat.zero_le 1
  unopened _ _ := ⟨rfl, rfl, rfl⟩
  answered _ _ := nofun
  deferred _ := nofun
  created _ := nofun

theorem Sound.single (sound : Sound o s) (socket : Nat) :
    (s.served o socket).handlers.length ≤ 1 ∧ (s.served o socket).admissions ≤ 1 := by
  have handlers := sound.handlers socket
  have admissions := sound.admissions socket
  constructor <;> omega

/-- The gateway goes on without a frame of this client. -/
theorem Sound.gateway (sound : Sound o s) {gateway : WsGateway}
    (spends : ∀ socket, (s.served o socket).Spends (gateway.connections (o.number socket))) :
    Sound o { s with gateway } where
  handlers socket := (Nat.add_le_add_left (spends _).handlers _).trans (sound.handlers socket)
  admissions socket := (Nat.add_le_add_left (spends _).admissions _).trans (sound.admissions socket)
  unopened socket early := by
    obtain ⟨nothing, idle, fresh⟩ := sound.unopened socket early
    have handlers := (spends socket).handlers
    have admissions := (spends socket).admissions
    have none_waits : (s.served o socket).waiting = 0 := by
      rw [WsConnection.waiting, idle]
      rfl
    change _ + (gateway.connections (o.number socket)).waiting ≤
      (s.served o socket).admissions + (s.served o socket).waiting at admissions
    rw [fresh, none_waits] at admissions
    refine ⟨nothing, List.length_eq_zero_iff.mp (Nat.le_zero.mp ?_),
      Nat.le_zero.mp ((Nat.le_add_right _ _).trans admissions)⟩
    exact handlers.trans (le_of_eq (List.length_eq_zero_iff.mpr idle))
  answered socket frame member answers :=
    (spends _).bound (sound.answered socket frame member answers)
  deferred socket current isOpen jobs := (spends _).bound (sound.deferred socket current isOpen jobs)
  created := sound.created

/-- The client goes on; a socket that is still to be opened was still to be opened before. -/
theorem Sound.client (sound : Sound o s) {client : ClientConnection}
    (unopened : ∀ socket, Unopened { s with client } socket → s.Unopened socket)
    (deferred : ∀ socket, client.socket = some socket → client.client.ws = some .OPEN →
      client.client.handshakeGate ≠ [] → (s.served o socket).bound ≠ none)
    (created : ∀ socket, client.socket = some socket → socket < client.created) :
    Sound o { s with client } where
  handlers := sound.handlers
  admissions := sound.admissions
  unopened socket early := sound.unopened socket (unopened socket early)
  answered := sound.answered
  deferred := deferred
  created := created

theorem Sound.sameSocket (sound : Sound o s) {client : ClientConnection}
    (same : ClientConnection.SameSocket s.client client)
    (deferred : ∀ socket, s.client.socket = some socket → s.client.client.ws = some .OPEN →
      client.client.handshakeGate ≠ [] → (s.served o socket).bound ≠ none) :
    Sound o { s with client } := by
  refine sound.client (fun socket early => ?_) (fun socket current isOpen => ?_)
    fun socket current => ?_
  · unfold Unopened at early ⊢
    rw [← same.created, ← same.socket, ← same.ws]
    exact early
  · exact deferred socket (same.socket.symm.trans current) (same.ws.symm.trans isOpen)
  · exact same.created ▸ sound.created socket (same.socket.symm.trans current)

theorem Sound.moved (sound : Sound o s) {client : ClientConnection}
    (moved : ClientConnection.Moved s.client client) : Sound o { s with client } := by
  cases moved with
  | stays same jobs =>
      exact sound.sameSocket same fun socket current isOpen some =>
        sound.deferred socket current isOpen (jobs some)
  | lost socket created =>
      refine sound.client (fun n early => ?_) (fun n current => ?_) fun n current => ?_
      · rcases early with later | ⟨current, -⟩
        · exact Or.inl (created ▸ later)
        · exact absurd (socket.symm.trans current) nofun
      · exact absurd (socket.symm.trans current) nofun
      · exact absurd (socket.symm.trans current) nofun
  | replaced socket created ws =>
      refine sound.client (fun n early => Or.inl ?_) (fun n current isOpen => ?_) fun n current => ?_
      · rcases early with later | ⟨current, -⟩
        · exact (Nat.le_succ _).trans (le_of_eq_of_le created.symm later)
        · exact le_of_eq (Option.some.inj (socket.symm.trans current))
      · exact absurd (ws.symm.trans isOpen) (by decide)
      · rw [created, ← Option.some.inj (socket.symm.trans current)]
        exact Nat.lt_succ_self _

/-- There is room for so many HELLOs more on the way to a connection. -/
def Room (o : ClientSettings) (s : ServedClient) (socket hellos : Nat) : Prop :=
  s.hellos socket + hellos + (s.served o socket).handlers.length ≤ 1 ∧
    s.hellos socket + hellos + ((s.served o socket).admissions + (s.served o socket).waiting) ≤ 1

/-- Frames are sent: a HELLO where there is room for it, answers over a bound connection. -/
theorem Sound.send (sound : Sound o s) {frames : List ClientFrame}
    (room : ∀ socket, s.client.socket = some socket →
      s.Room o socket (frames.countP ClientFrame.isHello))
    (answered : ∀ socket, s.client.socket = some socket → s.client.client.ws = some .OPEN →
      ∀ frame ∈ frames, frame.answers = true → (s.served o socket).bound ≠ none) :
    Sound o (s.send frames) := by
  unfold ServedClient.send
  cases current : s.client.socket with
  | none => exact sound
  | some n =>
      dsimp only
      split_ifs with isOpen
      · have here : (Function.update s.wire n (s.wire n ++ frames) n).countP ClientFrame.isHello =
            s.hellos n + frames.countP ClientFrame.isHello := by
          rw [Function.update_self, List.countP_append]
          rfl
        constructor
        · intro socket
          show List.countP _ (Function.update s.wire n (s.wire n ++ frames) socket) + _ ≤ 1
          by_cases same : socket = n
          · subst same
            rw [here]
            exact (room socket current).1
          · rw [Function.update_of_ne same]
            exact sound.handlers socket
        · intro socket
          show List.countP _ (Function.update s.wire n (s.wire n ++ frames) socket) + _ ≤ 1
          by_cases same : socket = n
          · subst same
            rw [here]
            exact (room socket current).2
          · rw [Function.update_of_ne same]
            exact sound.admissions socket
        · intro socket early
          have other : socket ≠ n := by
            rintro rfl
            rcases early with later | ⟨-, connecting⟩
            · exact absurd (sound.created socket current) (Nat.not_lt.mpr later)
            · exact absurd (isOpen.symm.trans connecting) (by decide)
          show Function.update s.wire n _ socket = [] ∧ _
          rw [Function.update_of_ne other]
          exact sound.unopened socket early
        · intro socket frame member answers
          change frame ∈ Function.update s.wire n _ socket at member
          by_cases same : socket = n
          · subst same
            rw [Function.update_self] at member
            rcases List.mem_append.mp member with before | now
            · exact sound.answered socket frame before answers
            · exact answered socket current isOpen frame now answers
          · rw [Function.update_of_ne same] at member
            exact sound.answered socket frame member answers
        · exact sound.deferred
        · exact sound.created
      · exact sound

/-- Frames other than HELLO are sent. -/
theorem Sound.sendOthers (sound : Sound o s) {frames : List ClientFrame}
    (others : ∀ frame ∈ frames, frame.isHello = false)
    (answered : ∀ socket, s.client.socket = some socket → s.client.client.ws = some .OPEN →
      ∀ frame ∈ frames, frame.answers = true → (s.served o socket).bound ≠ none) :
    Sound o (s.send frames) := by
  have none_more : frames.countP ClientFrame.isHello = 0 :=
    List.countP_eq_zero.mpr fun frame member => by
      rw [others frame member]
      decide
  refine sound.send (fun socket _ => ?_) answered
  rw [none_more]
  exact ⟨sound.handlers socket, sound.admissions socket⟩

/-- HELLO is the first frame of its socket. -/
theorem Sound.socketOpened (sound : Sound o s)
    (connecting : s.client.client.ws = some .CONNECTING) (msg : HelloMessage) :
    Sound o ({ s with client := s.client.onOpen }.send [.hello msg]) := by
  have opened : Sound o { s with client := s.client.onOpen } := by
    refine sound.client (fun socket early => ?_) (fun _ _ _ jobs => absurd rfl jobs) sound.created
    refine Or.inl (early.resolve_right fun still => ?_)
    exact absurd (show some ReadyState.OPEN = some .CONNECTING from still.2) (by decide)
  refine opened.send (fun socket there => ?_) (fun _ _ _ frame member answers => ?_)
  · obtain ⟨nothing, idle, fresh⟩ := sound.unopened socket (Or.inr ⟨there, connecting⟩)
    show (s.wire socket).countP _ + 1 + (s.served o socket).handlers.length ≤ 1 ∧
      (s.wire socket).countP _ + 1 +
        ((s.served o socket).admissions + (s.served o socket).handlers.countP _) ≤ 1
    rw [nothing, idle, fresh]
    exact ⟨Nat.le_refl 1, Nat.le_refl 1⟩
  · rw [List.mem_singleton.mp member] at answers
    cases answers

/-- The next frame of a socket reaches its connection, which takes a HELLO for one handler more. -/
theorem Sound.received (sound : Sound o s) {n : Nat} {frame : ClientFrame} {later : List ClientFrame}
    (there : s.wire n = frame :: later) {gateway : WsGateway}
    (elsewhere : ∀ socket, socket ≠ n →
      gateway.connections (o.number socket) = s.served o socket)
    (handlers : (gateway.connections (o.number n)).handlers.length ≤
      (s.served o n).handlers.length + frame.isHello.toNat)
    (admissions : (gateway.connections (o.number n)).admissions +
        (gateway.connections (o.number n)).waiting ≤
      (s.served o n).admissions + (s.served o n).waiting + frame.isHello.toNat)
    (bound : (s.served o n).bound ≠ none → (gateway.connections (o.number n)).bound ≠ none) :
    Sound o { s with wire := Function.update s.wire n later, gateway } := by
  have taken : s.hellos n = later.countP ClientFrame.isHello + frame.isHello.toNat := by
    rw [hellos, there, List.countP_cons]
    cases frame.isHello <;> rfl
  have opened : ∀ {socket : Nat}, s.Unopened socket → socket ≠ n := by
    rintro socket early rfl
    exact absurd (there.symm.trans (sound.unopened socket early).1) nofun
  constructor
  · intro socket
    show List.countP _ (Function.update s.wire n later socket) +
      (gateway.connections (o.number socket)).handlers.length ≤ 1
    by_cases same : socket = n
    · subst same
      have before := sound.handlers socket
      rw [Function.update_self]
      omega
    · rw [Function.update_of_ne same, elsewhere socket same]
      exact sound.handlers socket
  · intro socket
    show List.countP _ (Function.update s.wire n later socket) +
      ((gateway.connections (o.number socket)).admissions + _) ≤ 1
    by_cases same : socket = n
    · subst same
      have before := sound.admissions socket
      rw [Function.update_self]
      change _ + (_ + (gateway.connections (o.number socket)).waiting) ≤ 1
      omega
    · rw [Function.update_of_ne same]
      show _ + (_ + (gateway.connections (o.number socket)).waiting) ≤ 1
      rw [elsewhere socket same]
      exact sound.admissions socket
  · intro socket early
    have other := opened early
    show Function.update s.wire n later socket = [] ∧
      (gateway.connections (o.number socket)).handlers = [] ∧
      (gateway.connections (o.number socket)).admissions = 0
    rw [Function.update_of_ne other, elsewhere socket other]
    exact sound.unopened socket early
  · intro socket x member answers
    change x ∈ Function.update s.wire n later socket at member
    show (gateway.connections (o.number socket)).bound ≠ none
    by_cases same : socket = n
    · subst same
      rw [Function.update_self] at member
      exact bound (sound.answered socket x (there ▸ List.mem_cons_of_mem _ member) answers)
    · rw [Function.update_of_ne same] at member
      rw [elsewhere socket same]
      exact sound.answered socket x member answers
  · intro socket current isOpen jobs
    have before := sound.deferred socket current isOpen jobs
    show (gateway.connections (o.number socket)).bound ≠ none
    by_cases same : socket = n
    · subst same
      exact bound before
    · rw [elsewhere socket same]
      exact before
  · exact sound.created

/-- The connections of two sockets are different. -/
theorem number_ne {m n : Nat} (different : m ≠ n) : o.number m ≠ o.number n := by
  intro same
  have first := (o.numbered m (o.number n)).mpr same
  exact different (Option.some.inj (first.symm.trans ((o.numbered n _).mpr rfl)))

theorem served_setConnection {n : Nat} {c : WsConnection} (socket : Nat) (different : socket ≠ n) :
    (s.gateway.setConnection (o.number n) c).connections (o.number socket) = s.served o socket :=
  Function.update_of_ne (number_ne different) ..

theorem served_self {n : Nat} {c : WsConnection} :
    (s.gateway.setConnection (o.number n) c).connections (o.number n) = c := Function.update_self ..

theorem incoming_other {userId displayName : String} {passes : Bool} {frame : ClientFrame}
    (plain : frame.isHello = false) :
    incoming o.documentId userId displayName passes frame = .other := by
  cases frame with
  | hello msg => cases plain
  | _ => rfl

/-- The close as malformed concerns the socket alone. -/
theorem closeMalformed_same (c : WsConnection) :
    (WsGateway.closeMalformed c).handlers = c.handlers ∧
      (WsGateway.closeMalformed c).admissions = c.admissions ∧
      (WsGateway.closeMalformed c).bound = c.bound := by
  unfold WsGateway.closeMalformed
  split_ifs <;> exact ⟨rfl, rfl, rfl⟩

theorem Sound.handleMessage (sound : Sound o s) {n : Nat} {frame : ClientFrame}
    {later : List ClientFrame} (there : s.wire n = frame :: later) (userId displayName : String)
    (passes : Bool) :
    Sound o { s with
      wire := Function.update s.wire n later
      gateway := s.gateway.handleMessage (o.number n)
        (incoming o.documentId userId displayName passes frame) } := by
  cases kind : frame.isHello with
  | false =>
      rw [incoming_other kind, WsGateway.handleMessage_other]
      split_ifs
      · obtain ⟨handlers, admissions, bound⟩ := closeMalformed_same (s.served o n)
        refine sound.received there served_setConnection ?_ ?_ ?_
        · rw [served_self]
          exact (le_of_eq (congrArg _ handlers)).trans (Nat.le_add_right ..)
        · rw [served_self]
          show (WsGateway.closeMalformed (s.served o n)).admissions +
            List.countP _ (WsGateway.closeMalformed (s.served o n)).handlers ≤ _
          rw [handlers, admissions]
          exact Nat.le_add_right ..
        · rw [served_self]
          exact fun before => bound ▸ before
      · exact sound.received there (fun _ _ => rfl) (Nat.le_add_right ..) (Nat.le_add_right ..) id
  | true =>
      cases frame with
      | hello msg =>
          rcases WsGateway.handleMessage_hello (g := s.gateway) (k := o.number n) o.documentId userId
            displayName passes with same | begun
          · show Sound o { s with
              wire := _, gateway := s.gateway.handleMessage _ (.hello _ _ _ _) }
            rw [same]
            exact sound.received there (fun _ _ => rfl) (Nat.le_add_right ..)
              (Nat.le_add_right ..) id
          · show Sound o { s with
              wire := _, gateway := s.gateway.handleMessage _ (.hello _ _ _ _) }
            rw [begun]
            refine sound.received there served_setConnection ?_ ?_ ?_
            · rw [served_self, List.length_append]
              exact Nat.le_refl _
            · rw [served_self]
              show (s.served o n).admissions + List.countP _ ((s.served o n).handlers ++ [_]) ≤ _
              rw [List.countP_append]
              exact le_of_eq (Nat.add_assoc ..).symm
            · rw [served_self]
              exact id
      | _ => cases kind

/-- What a job transmits are answers. -/
theorem sentByJob_answers {before after : ClientConnection} {frame : ClientFrame}
    (member : frame ∈ sentByJob before after) : frame.isHello = false := by
  rcases List.mem_append.mp member with resent | complete
  · obtain ⟨ops, -, rfl⟩ := List.mem_map.mp resent
    rfl
  · split_ifs at complete
    · rw [List.mem_singleton.mp complete]
      rfl
    · cases complete

/-- An event of the gateway that is not a frame of this client. -/
theorem spends_gateway {e : WsEvent} {gateway : WsGateway} (foreign : source o e = none)
    (moved : s.gateway.step e = .ok gateway) (socket : Nat) :
    (s.served o socket).Spends (gateway.connections (o.number socket)) := by
  cases quiet : WsGateway.silent e with
  | true => exact WsGateway.spends_step moved quiet _
  | false =>
      cases e with
      | message k frame =>
          simp only [WsGateway.step] at moved
          split_ifs at moved
          obtain rfl := Except.ok.inj moved
          have other : o.number socket ≠ k := by
            intro same
            have none_there : o.socketOf k = none := foreign
            exact absurd (none_there.symm.trans ((o.numbered socket k).mpr same)) (by rintro ⟨⟩)
          rw [WsGateway.handleMessage_elsewhere other]
          exact WsConnection.Spends.refl _
      | _ => cases quiet

/-- A frame that comes in is the first of its socket, which is not closed. -/
theorem received_ok {n : Nat} {userId displayName : String} {passes : Bool}
    (stepped : s.step o (.received n userId displayName passes) = .ok s') :
    ∃ frame later, s.wire n = frame :: later ∧
      s' = { s with
        wire := Function.update s.wire n later
        gateway := s.gateway.handleMessage (o.number n)
          (incoming o.documentId userId displayName passes frame) } := by
  simp only [step] at stepped
  split at stepped
  · cases stepped
  · rename_i frame later there
    obtain ⟨gateway, moved, done⟩ := Throwing.ok_of_bind stepped
    simp only [WsGateway.step] at moved
    split_ifs at moved
    obtain rfl := Except.ok.inj moved
    exact ⟨frame, later, there, (Except.ok.inj done).symm⟩

theorem gateway_ok {e : WsEvent} (stepped : s.step o (.gateway e) = .ok s') :
    ∃ gateway, source o e = none ∧ s.gateway.step e = .ok gateway ∧ s' = { s with gateway } := by
  simp only [step] at stepped
  split at stepped
  · cases stepped
  · rename_i foreign
    obtain ⟨gateway, moved, done⟩ := Throwing.ok_of_bind stepped
    exact ⟨gateway, foreign, moved, (Except.ok.inj done).symm⟩

/-- Frames that are neither HELLO nor the answer to one. -/
theorem Sound.sendSingle (sound : Sound o s) {frame : ClientFrame} (other : frame.isHello = false)
    (unanswering : frame.answers = false) : Sound o (s.send [frame]) := by
  refine sound.sendOthers (fun x member => ?_) fun _ _ _ x member answers => ?_
  · rw [List.mem_singleton.mp member]
    exact other
  · rw [List.mem_singleton.mp member, unanswering] at answers
    cases answers

/-- Every step keeps the invariant. -/
theorem sound_step {e : Event} (sound : Sound o s) (stepped : s.step o e = .ok s') : Sound o s' := by
  cases e with
  | client e =>
      cases e with
      | socketOpened n =>
          obtain ⟨client, moved, done⟩ := Throwing.ok_of_bind stepped
          simp only [ClientConnection.step] at moved
          split_ifs at moved with other connecting
          · obtain rfl := Except.ok.inj moved
            rw [if_neg other] at done
            obtain rfl := Except.ok.inj done
            exact sound
          · obtain rfl := Except.ok.inj moved
            rw [if_pos (not_not.mp other)] at done
            obtain rfl := Except.ok.inj done
            exact sound.socketOpened connecting _
      | frame n msg =>
          simp only [step] at stepped
          split_ifs at stepped with unbound
          obtain ⟨client, moved, done⟩ := Throwing.ok_of_bind stepped
          obtain rfl := Except.ok.inj done
          simp only [ClientConnection.step] at moved
          split_ifs at moved with other isOpen
          · obtain rfl := Except.ok.inj moved
            exact sound
          · obtain rfl := Except.ok.inj moved
            refine sound.sameSocket (ClientConnection.sameSocket_handleControl msg) ?_
            intro socket current _ _
            rw [← Option.some.inj ((not_not.mp other).symm.trans current)]
            exact unbound
      | job place nowMs =>
          obtain ⟨client, moved, done⟩ := Throwing.ok_of_bind stepped
          obtain rfl := Except.ok.inj done
          have went := ClientConnection.moved_step moved rfl
          refine (sound.moved went).sendOthers (fun frame => sentByJob_answers) ?_
          intro socket current isOpen _ _ _
          cases went with
          | stays same jobs =>
              refine sound.deferred socket (same.socket.symm.trans current)
                (same.ws.symm.trans isOpen) ?_
              rintro empty
              simp only [ClientConnection.step, empty] at moved
              cases moved
          | lost gone => exact absurd (gone.symm.trans current) (by rintro ⟨⟩)
          | replaced _ _ connecting => exact absurd (connecting.symm.trans isOpen) (by decide)
      | _ =>
          obtain ⟨client, moved, done⟩ := Throwing.ok_of_bind stepped
          obtain rfl := Except.ok.inj done
          exact sound.moved (ClientConnection.moved_step moved rfl)
  | opsFrame n msg =>
      simp only [step] at stepped
      split_ifs at stepped with unbound other
      · obtain rfl := Except.ok.inj stepped
        exact sound
      · split at stepped
        · rename_i client handled
          obtain rfl := Except.ok.inj stepped
          have ws := (ClientConnection.sameLine_handleOpsMessage handled).1
          have gate := (ConnectedClient.sameGate_handleOpsMessage handled).1
          exact sound.moved (.stays ⟨rfl, rfl, ws⟩ fun some => gate ▸ some)
        · obtain rfl := Except.ok.inj stepped
          exact sound
  | edit call nowMs =>
      obtain rfl := Except.ok.inj stepped
      have ws := SyncClient.perform_ws o.isClusterContinuing nowMs s.client.client.toSyncClient call
      have performed : Sound o { s with client := { s.client with
          client := s.client.client.perform o.isClusterContinuing nowMs call } } :=
        sound.moved (.stays ⟨rfl, rfl, ws⟩ id)
      refine performed.sendOthers ?_ ?_
      · intro frame member
        obtain ⟨ops, -, rfl⟩ := List.mem_map.mp member
        rfl
      · intro socket _ _ frame member answers
        obtain ⟨ops, -, rfl⟩ := List.mem_map.mp member
        cases answers
  | presence position =>
      obtain rfl := Except.ok.inj stepped
      exact sound.sendSingle rfl rfl
  | pingDue id nowMs =>
      simp only [step] at stepped
      split_ifs at stepped
      obtain rfl := Except.ok.inj stepped
      exact sound.sendSingle rfl rfl
  | received n userId displayName passes =>
      obtain ⟨frame, later, there, rfl⟩ := received_ok stepped
      exact sound.handleMessage there userId displayName passes
  | gateway e =>
      obtain ⟨gateway, foreign, moved, rfl⟩ := gateway_ok stepped
      exact sound.gateway (spends_gateway foreign moved)

/-! ### The runs -/

@[simp] theorem send_gateway (s : ServedClient) (frames : List ClientFrame) :
    (s.send frames).gateway = s.gateway := by
  unfold ServedClient.send
  split
  · rfl
  · split_ifs <;> rfl

/-- The event takes place at the gateway. -/
def atGateway : Event → Bool
  | .received _ _ _ _ | .gateway _ => true
  | _ => false

theorem gateway_step {e : Event} (stepped : s.step o e = .ok s') (away : atGateway e = false) :
    s'.gateway = s.gateway := by
  cases e with
  | client e =>
      cases e with
      | socketOpened n =>
          obtain ⟨client, -, done⟩ := Throwing.ok_of_bind stepped
          split_ifs at done
          · obtain rfl := Except.ok.inj done
            exact send_gateway _ _
          · obtain rfl := Except.ok.inj done
            rfl
      | frame n msg =>
          simp only [step] at stepped
          split_ifs at stepped
          obtain ⟨client, -, done⟩ := Throwing.ok_of_bind stepped
          obtain rfl := Except.ok.inj done
          rfl
      | job place nowMs =>
          obtain ⟨client, -, done⟩ := Throwing.ok_of_bind stepped
          obtain rfl := Except.ok.inj done
          exact send_gateway _ _
      | _ =>
          obtain ⟨client, -, done⟩ := Throwing.ok_of_bind stepped
          obtain rfl := Except.ok.inj done
          rfl
  | opsFrame n msg =>
      simp only [step] at stepped
      split_ifs at stepped
      · obtain rfl := Except.ok.inj stepped
        rfl
      · split at stepped
        · obtain rfl := Except.ok.inj stepped
          rfl
        · obtain rfl := Except.ok.inj stepped
          rfl
  | edit call nowMs =>
      obtain rfl := Except.ok.inj stepped
      exact send_gateway _ _
  | presence position =>
      obtain rfl := Except.ok.inj stepped
      exact send_gateway _ _
  | pingDue id nowMs =>
      simp only [step] at stepped
      split_ifs at stepped
      obtain rfl := Except.ok.inj stepped
      exact send_gateway _ _
  | received n userId displayName passes => cases away
  | gateway e => cases away

/-- A frame is taken as malformed when it comes out of turn. -/
theorem wellFormed_received (sound : Sound o s) {n : Nat} {frame : ClientFrame}
    (next : frame ∈ (s.wire n).head?) (wellFormed : ∀ socket, (s.served o socket).malformed = false)
    (userId displayName : String) (passes : Bool) :
    (∀ socket, ((s.gateway.handleMessage (o.number n)
        (incoming o.documentId userId displayName passes frame)).connections
          (o.number socket)).malformed = false) ↔
      (frame.unprompted = true →
        (s.served o n).bound ≠ none ∨ (s.served o n).readyState ≠ .OPEN) := by
  have member : frame ∈ s.wire n := List.mem_of_mem_head? next
  cases kind : frame.isHello with
  | true =>
      cases frame with
      | hello msg =>
          refine ⟨fun _ => nofun, fun _ socket => ?_⟩
          rcases WsGateway.handleMessage_hello (g := s.gateway) (k := o.number n) o.documentId userId
            displayName passes with same | begun
          · show ((s.gateway.handleMessage _ (.hello _ _ _ _)).connections _).malformed = false
            rw [same]
            exact wellFormed socket
          · show ((s.gateway.handleMessage _ (.hello _ _ _ _)).connections _).malformed = false
            rw [begun]
            by_cases same : socket = n
            · rw [same, served_self]
              exact wellFormed n
            · rw [served_setConnection socket same]
              exact wellFormed socket
      | _ => cases kind
  | false =>
      rw [incoming_other kind, WsGateway.handleMessage_other]
      change (∀ socket, ((if (s.served o n).bound = none then _ else _ : WsGateway).connections
        (o.number socket)).malformed = false) ↔ _
      by_cases bound : (s.served o n).bound = none
      · rw [if_pos bound]
        have asked : frame.unprompted = true := by
          rcases frame.kinds with hello | answers | asked
          · exact absurd (kind.symm.trans hello) (by decide)
          · exact absurd bound (sound.answered n frame member answers)
          · exact asked
        constructor
        · intro kept _
          have here := kept n
          rw [served_self] at here
          refine Or.inr fun isOpen => ?_
          change (WsGateway.closeMalformed (s.served o n)).malformed = false at here
          rw [WsGateway.closeMalformed, if_pos isOpen] at here
          cases here
        · intro inTurn socket
          have closing := (inTurn asked).resolve_left (not_not.mpr bound)
          by_cases same : socket = n
          · rw [same, served_self]
            show (WsGateway.closeMalformed (s.served o n)).malformed = false
            rw [WsGateway.closeMalformed, if_neg closing]
            exact wellFormed n
          · rw [served_setConnection socket same]
            exact wellFormed socket
      · rw [if_neg bound]
        exact ⟨fun _ _ => Or.inl bound, fun _ socket => wellFormed socket⟩

/-- A step keeps the connections undisturbed exactly when the frame that comes in, if any, comes in
turn. -/
theorem undisturbed_step {e : Event} (sound : Sound o s) (undisturbed : Undisturbed o s)
    (stepped : s.step o e = .ok s') : Undisturbed o s' ↔ s.InTurn o e := by
  have next := sound_step sound stepped
  have only : Undisturbed o s' ↔ ∀ socket, (s'.served o socket).malformed = false :=
    ⟨fun whole => whole.wellFormed, fun wellFormed =>
      ⟨wellFormed, fun socket => (next.single socket).1, fun socket => (next.single socket).2⟩⟩
  rw [only]
  cases e with
  | received n userId displayName passes =>
      obtain ⟨frame, later, there, rfl⟩ := received_ok stepped
      have first : (s.wire n).head? = some frame := by rw [there]; rfl
      have exactly := wellFormed_received sound first undisturbed.wellFormed userId displayName passes
      refine exactly.trans ?_
      constructor
      · intro inTurn other another
        obtain rfl := Option.some.inj (first.symm.trans another)
        exact inTurn
      · exact fun inTurn => inTurn frame first
  | gateway e =>
      refine ⟨fun _ => trivial, fun _ socket => ?_⟩
      obtain ⟨gateway, foreign, moved, rfl⟩ := gateway_ok stepped
      exact (spends_gateway foreign moved socket).malformed.trans (undisturbed.wellFormed socket)
  | _ =>
      refine ⟨fun _ => trivial, fun _ socket => ?_⟩
      unfold served
      rw [gateway_step stepped rfl]
      exact undisturbed.wellFormed socket

theorem undisturbed_start (auth : Bool) : Undisturbed o (start auth) :=
  ⟨fun _ => rfl, fun _ => Nat.zero_le 1, fun _ => Nat.zero_le 1⟩

/-- A gateway whose connections are all of one client. -/
def alone : ClientSettings where
  fetchesTickets := false
  opensStorageLater := false
  documentId := "document"
  isClusterContinuing _ := false
  number := id
  socketOf := some
  numbered _ _ := Option.some_inj.trans eq_comm

/-- A first connection from HELLO to SYNC_COMPLETE, and its end. -/
def firstConnection : List Event :=
  [.client (.connect 0), .client (.socketOpened 0), .received 0 "user" "User" true,
    .gateway (.warmStarted 0 0 true .EDITOR), .client (.frame 0 (.welcome 1 .EDITOR .SNAPSHOT)),
    .client (.frame 0 (.snapshot 0 [])), .client (.frame 0 (.alreadyHave [])), .client (.job 0 0),
    .received 0 "user" "User" true, .gateway (.finished 0 0), .gateway (.closed 0),
    .client (.socketClosed 0 10), .client (.reconnectDue 0)]

/-- The client comes back, and its user types while the gateway still starts the document. -/
def typedEarly : List Event :=
  firstConnection ++ [.client (.socketOpened 1), .edit (.localInsert 0 97 none) 20,
    .received 1 "user" "User" true, .received 1 "user" "User" true]

end ServedClient

end ConfluenceEditor
