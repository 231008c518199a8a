/-
The gateway's connections and the sessions that they are admitted with.

A frame that comes before the connection is bound starts a handshake of its own: HELLO waits for the
warm start of its document and, where tickets are used, for the role of its user, and then admits a
session; any other frame closes the connection as malformed. The state of the socket is looked at
after the warm start only, and whether the connection is bound already is not looked at again. So two
HELLOs admit two sessions, and a connection that closes during the role lookup leaves a session behind;
`single_session` says that nothing else goes wrong.
-/

import ConfluenceEditor.Client.SyncClient
import ConfluenceEditor.Library.Run
import ConfluenceEditor.Server.Gateway
import ConfluenceEditor.Server.PresenceRoom

namespace ConfluenceEditor

/-- Where the handler of a HELLO is suspended: at the warm start, at the role lookup for a session
that has its replica id, or behind the admission. -/
inductive AdmissionStage where
  | warmStart
  | role (replicaId : Nat)
  | admitted
  deriving DecidableEq, Repr

/-- The handler of a HELLO, with the identity that its ticket names or that is made up. -/
structure HelloHandler where
  documentId : String
  userId : String
  displayName : String
  stage : AdmissionStage
  deriving DecidableEq, Repr

/-- A connection; its number is the id of its session. The last two fields record whether it was
closed as malformed and how many sessions it was admitted with. -/
structure WsConnection where
  readyState : ReadyState
  bound : Option String
  handlers : List HelloHandler
  malformed : Bool
  admissions : Nat
  deriving DecidableEq, Repr

structure JoinedSession where
  sessionId : Nat
  replicaId : Nat
  userId : String
  role : SessionRole
  deriving DecidableEq, Repr

/-- A document's coordinator and its presence room. -/
structure OpenDocument where
  nextReplicaId : Nat
  sessions : Keyed JoinedSession.sessionId
  room : PresenceRoom

structure WsGateway where
  /-- Tickets and roles are checked. -/
  auth : Bool
  connections : Nat → WsConnection
  documents : String → OpenDocument

/-- A frame as the gateway's handler tells it from others. `passes` says whether the ticket is valid
and the account is within its connection rate. -/
inductive IncomingFrame where
  | hello (documentId userId displayName : String) (passes : Bool)
  | leave
  /-- A frame of operations, a presence update, or another control frame. -/
  | other
  | undecodable
  deriving DecidableEq, Repr

inductive WsEvent where
  | message (k : Nat) (frame : IncomingFrame)
  /-- The warm start that a handler waits for is over; `role` is EDITOR, or what a test queued. -/
  | warmStarted (k i : Nat) (succeeded : Bool) (role : SessionRole)
  | roleFound (k i : Nat) (role : Option DocumentRole)
  | lookupFailed (k i : Nat)
  /-- The handler has sent the roster, or has thrown. -/
  | finished (k i : Nat)
  | presenceStale (k : Nat) (documentId : String)
  /-- The socket begins to close, from either side; the close event. -/
  | closing (k : Nat)
  | closed (k : Nat)
  deriving DecidableEq, Repr

namespace WsGateway

open Run

def start (auth : Bool) : WsGateway :=
  ⟨auth, fun _ => ⟨.OPEN, none, [], false, 0⟩, fun _ => ⟨1, Keyed.empty, .empty⟩⟩

def setConnection (g : WsGateway) (k : Nat) (c : WsConnection) : WsGateway :=
  { g with connections := Function.update g.connections k c }

def setDocument (g : WsGateway) (documentId : String) (d : OpenDocument) : WsGateway :=
  { g with documents := Function.update g.documents documentId d }

def closeMalformed (c : WsConnection) : WsConnection :=
  if c.readyState = .OPEN then { c with readyState := .CLOSING, malformed := true } else c

/-- The session joins the coordinator and the room, and the connection is bound to it. -/
def admitSession (g : WsGateway) (k : Nat) (h : HelloHandler) (replicaId : Nat) (role : SessionRole) :
    WsGateway :=
  let d := g.documents h.documentId
  let c := g.connections k
  (g.setDocument h.documentId { d with
    sessions := d.sessions.set ⟨k, replicaId, h.userId, role⟩
    room := (d.room.join ⟨k, replicaId, h.userId, h.displayName, role⟩).1 }).setConnection k { c with
      bound := some h.documentId
      admissions := c.admissions + 1 }

def leaveRoom (g : WsGateway) (k : Nat) (documentId : String) (reason : PresenceLeaveReason) :
    WsGateway :=
  let d := g.documents documentId
  g.setDocument documentId { d with room := (d.room.leave k reason).1 }

/-- The coordinator forgets the session. -/
def leaveDocument (g : WsGateway) (k : Nat) (documentId : String) : WsGateway :=
  let d := g.documents documentId
  g.setDocument documentId { d with
    sessions := d.sessions.delete k }

/-- A frame before the connection is bound. A handshake that is rejected closes the socket once its
ERROR frame is written, which is an event of its own. -/
def handleHandshake (g : WsGateway) (k : Nat) : IncomingFrame → WsGateway
  | .hello documentId userId displayName passes =>
      let c := g.connections k
      if g.auth && !passes then g
      else g.setConnection k { c with
        handlers := c.handlers ++ [⟨documentId, userId, displayName, .warmStart⟩] }
  | _ => g.setConnection k (closeMalformed (g.connections k))

def handleMessage (g : WsGateway) (k : Nat) (frame : IncomingFrame) : WsGateway :=
  match (g.connections k).bound, frame with
  | none, frame => g.handleHandshake k frame
  | some documentId, .leave => g.leaveRoom k documentId .CLEAN
  | some _, .undecodable => g.setConnection k (closeMalformed (g.connections k))
  | some _, _ => g

/-- The handler at place `i` ends or goes on to another stage. -/
def endHandler (c : WsConnection) (i : Nat) : WsConnection :=
  { c with handlers := c.handlers.eraseIdx i }

def setStage (c : WsConnection) (i : Nat) (h : HelloHandler) (stage : AdmissionStage) : WsConnection :=
  { c with handlers := c.handlers.set i { h with stage } }

def warmStarted (g : WsGateway) (k i : Nat) (h : HelloHandler) (succeeded : Bool)
    (role : SessionRole) : WsGateway :=
  let c := g.connections k
  if !succeeded then
    g.setConnection k
      (endHandler (if c.readyState = .OPEN then { c with readyState := .CLOSING } else c) i)
  else if c.readyState ≠ .OPEN then g.setConnection k (endHandler c i)
  else
    let d := g.documents h.documentId
    let replicaId := d.nextReplicaId
    let g := g.setDocument h.documentId { d with nextReplicaId := replicaId + 1 }
    if g.auth then g.setConnection k (setStage c i h (.role replicaId))
    else (g.setConnection k (setStage c i h .admitted)).admitSession k h replicaId role

def roleFound (g : WsGateway) (k i : Nat) (h : HelloHandler) (replicaId : Nat) :
    Option DocumentRole → WsGateway
  | none => g.setConnection k (endHandler (g.connections k) i)
  | some role => (g.setConnection k (setStage (g.connections k) i h .admitted)).admitSession k h
      replicaId (documentRoleToSessionRole role)

def handleClose (g : WsGateway) (k : Nat) : WsGateway :=
  let c := g.connections k
  let g := g.setConnection k { c with readyState := .CLOSED }
  match c.bound with
  | none => g
  | some documentId => (g.leaveRoom k documentId .STALE).leaveDocument k documentId

/-- The handler at place `i`, at this kind of stage. -/
def handlerAt (g : WsGateway) (k i : Nat) : Except String HelloHandler :=
  match (g.connections k).handlers[i]? with
  | some h => .ok h
  | none => .error "no such handler"

def step (g : WsGateway) : WsEvent → Except String WsGateway
  | .message k frame =>
      if (g.connections k).readyState = .CLOSED then .error "the connection is closed"
      else .ok (g.handleMessage k frame)
  | .warmStarted k i succeeded role => do
      let h ← g.handlerAt k i
      if h.stage = .warmStart then .ok (g.warmStarted k i h succeeded role)
      else .error "the handler does not wait for the warm start"
  | .roleFound k i role => do
      let h ← g.handlerAt k i
      match h.stage with
      | .role replicaId => .ok (g.roleFound k i h replicaId role)
      | _ => .error "the handler does not wait for a role"
  | .lookupFailed k i => do
      let h ← g.handlerAt k i
      match h.stage with
      | .role _ => .ok (g.setConnection k (endHandler (g.connections k) i))
      | _ => .error "the handler does not wait for a role"
  | .finished k i => do
      let h ← g.handlerAt k i
      if h.stage = .admitted then .ok (g.setConnection k (endHandler (g.connections k) i))
      else .error "the handler has not admitted its session"
  | .presenceStale k documentId => .ok (g.leaveRoom k documentId .STALE)
  | .closing k =>
      let c := g.connections k
      .ok (g.setConnection k (if c.readyState = .OPEN then { c with readyState := .CLOSING } else c))
  | .closed k =>
      if (g.connections k).readyState = .CLOSED then .error "the connection is closed"
      else .ok (g.handleClose k)

/-! ### The property -/

/-- The session of the connection is in the coordinator's map or in the presence room. -/
def Present (g : WsGateway) (k : Nat) (documentId : String) : Prop :=
  (∃ s ∈ (g.documents documentId).sessions, s.sessionId = k) ∨
    ∃ p ∈ (g.documents documentId).room.participants, p.sessionId = k

/-- A connection is admitted with one session at most, and leaves none behind. -/
structure SingleSession (g : WsGateway) : Prop where
  once : ∀ k, (g.connections k).admissions ≤ 1
  gone : ∀ k, (g.connections k).readyState = .CLOSED → (g.connections k).handlers = [] →
    ∀ documentId, ¬ g.Present k documentId

/-- No HELLO that passes comes while an earlier one is being handled, and no role is found for a
connection that has closed. -/
def Unhurried (g : WsGateway) : WsEvent → Prop
  | .message k (.hello _ _ _ passes) =>
      (g.connections k).bound = none → g.auth = false ∨ passes = true →
        (g.connections k).handlers = []
  | .roleFound k _ (some _) => (g.connections k).readyState ≠ .CLOSED
  | _ => True

instance (g : WsGateway) (e : WsEvent) : Decidable (g.Unhurried e) := by
  unfold Unhurried
  split <;> infer_instance

/-! ### The invariant -/

/-- Before the binding one handler at most is on its way, and none has admitted a session; afterwards
every handler has, and there is one session. -/
structure Regular (c : WsConnection) : Prop where
  waiting : c.bound = none →
    c.admissions = 0 ∧ c.handlers.length ≤ 1 ∧ ∀ h ∈ c.handlers, h.stage ≠ .admitted
  joined : c.bound ≠ none → c.admissions = 1 ∧ ∀ h ∈ c.handlers, h.stage = .admitted

structure Settled (g : WsGateway) : Prop where
  regular : ∀ k, Regular (g.connections k)
  present : ∀ k documentId, g.Present k documentId →
    (g.connections k).bound = some documentId ∧ (g.connections k).readyState ≠ .CLOSED

theorem settled_start (auth : Bool) : Settled (start auth) where
  regular k := ⟨fun _ => ⟨rfl, Nat.zero_le _, nofun⟩, fun bound => absurd rfl bound⟩
  present k documentId := by
    rintro (⟨s, inside, -⟩ | ⟨p, inside, -⟩)
    · exact absurd inside Keyed.not_mem_empty
    · exact absurd inside Keyed.not_mem_empty

theorem Settled.singleSession {g : WsGateway} (settled : Settled g) : SingleSession g where
  once k := by
    by_cases bound : (g.connections k).bound = none
    · rw [((settled.regular k).waiting bound).1]
      exact Nat.zero_le 1
    · rw [((settled.regular k).joined bound).1]
  gone k closed _ documentId present := (settled.present k documentId present).2 closed

variable {g : WsGateway} {c : WsConnection} {h : HelloHandler} {k i : Nat}

/-- A connection is replaced by one that suits the sessions which are present. -/
theorem Settled.setConnection (settled : Settled g) (regular : Regular c)
    (present : ∀ documentId, g.Present k documentId →
      c.bound = some documentId ∧ c.readyState ≠ .CLOSED) :
    Settled (g.setConnection k c) where
  regular j := by
    show Regular (Function.update g.connections k c j)
    by_cases same : j = k
    · rw [same, Function.update_self]
      exact regular
    · rw [Function.update_of_ne same]
      exact settled.regular j
  present j documentId there := by
    show (Function.update g.connections k c j).bound = _ ∧
      (Function.update g.connections k c j).readyState ≠ _
    by_cases same : j = k
    · subst same
      rw [Function.update_self]
      exact present documentId there
    · rw [Function.update_of_ne same]
      exact settled.present j documentId there

/-- A connection is replaced and keeps its binding; it may begin to close. -/
theorem Settled.setConnection_bound (settled : Settled g) (regular : Regular c)
    (bound : c.bound = (g.connections k).bound)
    (closed : c.readyState = .CLOSED → (g.connections k).readyState = .CLOSED) :
    Settled (g.setConnection k c) := by
  apply settled.setConnection regular
  intro documentId there
  obtain ⟨same, alive⟩ := settled.present k documentId there
  exact ⟨bound.trans same, fun dead => alive (closed dead)⟩

theorem Regular.closing (regular : Regular c) (readyState : ReadyState) (malformed : Bool) :
    Regular { c with readyState, malformed } := ⟨regular.waiting, regular.joined⟩

theorem Regular.endHandler (regular : Regular c) : Regular (endHandler c i) where
  waiting bound := by
    obtain ⟨none_yet, few, waits⟩ := regular.waiting bound
    refine ⟨none_yet, ?_, fun h left => waits h (List.mem_of_mem_eraseIdx left)⟩
    exact (List.eraseIdx_sublist _ _).length_le.trans few
  joined bound := by
    obtain ⟨one, admitted⟩ := regular.joined bound
    exact ⟨one, fun h left => admitted h (List.mem_of_mem_eraseIdx left)⟩

theorem Settled.endHandler (settled : Settled g) :
    Settled (g.setConnection k (endHandler (g.connections k) i)) :=
  settled.setConnection_bound (settled.regular k).endHandler rfl id

theorem Settled.closeMalformed (settled : Settled g) :
    Settled (g.setConnection k (closeMalformed (g.connections k))) := by
  unfold WsGateway.closeMalformed
  split_ifs with here
  · exact settled.setConnection_bound ((settled.regular k).closing _ _) rfl nofun
  · exact settled.setConnection_bound (settled.regular k) rfl id

/-- A session that leaves the room takes nothing along. -/
theorem Present.of_leaveRoom {documentId left : String} {j : Nat} {reason : PresenceLeaveReason}
    (there : (g.leaveRoom k left reason).Present j documentId) : g.Present j documentId := by
  unfold Present leaveRoom setDocument at there
  by_cases same : documentId = left
  · subst same
    simp only [Function.update_self] at there
    refine there.imp id ?_
    rintro ⟨p, inside, named⟩
    exact ⟨p, (PresenceRoom.mem_leave.mp inside).1, named⟩
  · simp only [Function.update_of_ne same] at there
    exact there

theorem Settled.leaveRoom (settled : Settled g) {documentId : String} {reason : PresenceLeaveReason} :
    Settled (g.leaveRoom k documentId reason) where
  regular := settled.regular
  present j document there := settled.present j document there.of_leaveRoom

/-- Once the session has left the room and the coordinator it is not present any more. -/
theorem Present.of_leave {documentId left : String} {j : Nat} {reason : PresenceLeaveReason}
    (there : ((g.leaveRoom k left reason).leaveDocument k left).Present j documentId) :
    g.Present j documentId ∧ ¬ (j = k ∧ documentId = left) := by
  unfold Present leaveDocument WsGateway.leaveRoom setDocument at there
  by_cases same : documentId = left
  · subst same
    simp only [Function.update_self] at there
    rcases there with ⟨s, inside, named⟩ | ⟨p, inside, named⟩
    · obtain ⟨before, other⟩ := Keyed.mem_delete.mp inside
      exact ⟨Or.inl ⟨s, before, named⟩, fun both => other (named.trans both.1)⟩
    · obtain ⟨before, other⟩ := PresenceRoom.mem_leave.mp inside
      exact ⟨Or.inr ⟨p, before, named⟩, fun both => other (named.trans both.1)⟩
  · simp only [Function.update_of_ne same] at there
    exact ⟨there, fun both => same both.2⟩

/-- The one session that an admission adds is that of the connection. -/
theorem Present.of_admitSession {documentId : String} {j replicaId : Nat} {role : SessionRole}
    (there : (g.admitSession k h replicaId role).Present j documentId) :
    g.Present j documentId ∨ j = k ∧ documentId = h.documentId := by
  unfold Present admitSession setConnection setDocument at there
  by_cases same : documentId = h.documentId
  · subst same
    simp only [Function.update_self] at there
    rcases there with ⟨s, inside, rfl⟩ | ⟨p, inside, rfl⟩
    · rcases Keyed.mem_set.mp inside with rfl | ⟨before, -⟩
      · exact Or.inr ⟨rfl, rfl⟩
      · exact Or.inl (Or.inl ⟨s, before, rfl⟩)
    · rcases PresenceRoom.mem_join.mp inside with rfl | ⟨before, -⟩
      · exact Or.inr ⟨rfl, rfl⟩
      · exact Or.inl (Or.inr ⟨p, before, rfl⟩)
  · simp only [Function.update_of_ne same] at there
    exact Or.inl there

/-! ### The steps -/

theorem handlerAt_ok : g.handlerAt k i = .ok h ↔ (g.connections k).handlers[i]? = some h := by
  unfold handlerAt
  cases (g.connections k).handlers[i]? with
  | none => simp
  | some other => simp

/-- A handler that has not admitted its session is the only one, before the binding. -/
theorem Regular.alone (regular : Regular c) (here : c.handlers[i]? = some h)
    (waits : h.stage ≠ .admitted) : c.bound = none ∧ c.admissions = 0 ∧ c.handlers = [h] ∧ i = 0 := by
  have member := List.mem_of_getElem? here
  by_cases bound : c.bound = none
  · obtain ⟨none_yet, few, -⟩ := regular.waiting bound
    have some := List.length_pos_of_mem member
    obtain ⟨only, list⟩ := List.length_eq_one_iff.mp (Nat.le_antisymm few some)
    rw [list] at here
    cases i with
    | zero =>
        obtain rfl := Option.some.inj here
        exact ⟨bound, none_yet, list, rfl⟩
    | succ i => cases here
  · exact absurd ((regular.joined bound).2 h member) waits

/-- The handler goes on from one stage before the binding to another. -/
theorem Settled.setStage (settled : Settled g) (here : (g.connections k).handlers[i]? = some h)
    (waits : h.stage ≠ .admitted) {stage : AdmissionStage} (still : stage ≠ .admitted) :
    Settled (g.setConnection k (setStage (g.connections k) i h stage)) := by
  obtain ⟨bound, none_yet, list, rfl⟩ := (settled.regular k).alone here waits
  refine settled.setConnection_bound (c := WsGateway.setStage (g.connections k) 0 h stage) ?_ rfl id
  refine ⟨fun _ => ⟨none_yet, ?_, ?_⟩, fun joined => absurd bound joined⟩
  · show ((g.connections k).handlers.set 0 _).length ≤ 1
    rw [List.length_set, list]
    exact Nat.le_refl 1
  · show ∀ x ∈ (g.connections k).handlers.set 0 _, x.stage ≠ .admitted
    rw [list]
    intro x member
    rw [List.mem_singleton.mp member]
    exact still

/-- The handler admits its session, on a connection that has not closed. -/
theorem Settled.admitSession (settled : Settled g) (here : (g.connections k).handlers[i]? = some h)
    (waits : h.stage ≠ .admitted) (alive : (g.connections k).readyState ≠ .CLOSED) (replicaId : Nat)
    (role : SessionRole) :
    Settled ((g.setConnection k (WsGateway.setStage (g.connections k) i h .admitted)).admitSession k h
      replicaId role) := by
  obtain ⟨bound, none_yet, list, rfl⟩ := (settled.regular k).alone here waits
  have joined : ((g.setConnection k (WsGateway.setStage (g.connections k) 0 h .admitted)).admitSession k h
      replicaId role).connections = Function.update g.connections k
        { g.connections k with
          handlers := [{ h with stage := .admitted }], bound := some h.documentId, admissions := 1 } := by
    unfold WsGateway.admitSession WsGateway.setStage WsGateway.setConnection setDocument
    simp only [Function.update_self, Function.update_idem, list, none_yet, List.set_cons_zero]
  constructor
  · intro j
    rw [joined]
    by_cases same : j = k
    · rw [same, Function.update_self]
      refine ⟨nofun, fun _ => ⟨rfl, fun x member => ?_⟩⟩
      rw [List.mem_singleton.mp member]
    · rw [Function.update_of_ne same]
      exact settled.regular j
  · intro j documentId there
    rw [joined]
    rcases there.of_admitSession with before | ⟨rfl, rfl⟩
    · obtain ⟨bound', alive'⟩ := settled.present j documentId before
      have other : j ≠ k := by
        rintro rfl
        rw [bound] at bound'
        cases bound'
      rw [Function.update_of_ne other]
      exact ⟨bound', alive'⟩
    · rw [Function.update_self]
      exact ⟨rfl, alive⟩

theorem Settled.handleMessage (settled : Settled g) {frame : IncomingFrame}
    (unhurried : g.Unhurried (.message k frame)) : Settled (g.handleMessage k frame) := by
  unfold WsGateway.handleMessage
  cases bound : (g.connections k).bound with
  | some documentId =>
      cases frame with
      | leave => exact settled.leaveRoom
      | undecodable => exact settled.closeMalformed
      | hello | other => exact settled
  | none =>
      cases frame with
      | leave | other | undecodable => exact settled.closeMalformed
      | hello documentId userId displayName passes =>
          show Settled (if g.auth && !passes then g else _)
          split_ifs with rejected
          · exact settled
          · have checked : g.auth = false ∨ passes = true := by
              cases auth : g.auth with
              | false => exact Or.inl rfl
              | true =>
                  rw [auth] at rejected
                  exact Or.inr (by simpa using rejected)
            have idle := unhurried bound checked
            refine settled.setConnection_bound (c := { g.connections k with
              handlers := (g.connections k).handlers ++
                [⟨documentId, userId, displayName, .warmStart⟩] }) ?_ rfl id
            refine ⟨fun _ => ⟨((settled.regular k).waiting bound).1, ?_, ?_⟩,
              fun joined => absurd bound joined⟩
            · show ((g.connections k).handlers ++ [_]).length ≤ 1
              rw [idle]
              exact Nat.le_refl 1
            · show ∀ x ∈ (g.connections k).handlers ++ [_], x.stage ≠ .admitted
              rw [idle]
              intro x member
              rw [List.mem_singleton.mp member]
              nofun

theorem Settled.handleClose (settled : Settled g) : Settled (g.handleClose k) := by
  have regular : Regular { g.connections k with readyState := .CLOSED } :=
    (settled.regular k).closing _ _
  unfold WsGateway.handleClose
  dsimp only
  split
  · rename_i bound
    refine settled.setConnection regular fun documentId there => ?_
    rw [(settled.present k documentId there).1] at bound
    cases bound
  · rename_i left bound
    constructor
    · intro j
      show Regular (Function.update g.connections k _ j)
      by_cases same : j = k
      · rw [same, Function.update_self]
        exact regular
      · rw [Function.update_of_ne same]
        exact settled.regular j
    · intro j documentId there
      obtain ⟨before, other⟩ := there.of_leave
      have here := settled.present j documentId before
      have distinct : j ≠ k := by
        rintro rfl
        rw [bound] at here
        exact other ⟨rfl, (Option.some.inj here.1).symm⟩
      show (Function.update g.connections k _ j).bound = _ ∧
        (Function.update g.connections k _ j).readyState ≠ _
      rw [Function.update_of_ne distinct]
      exact here

theorem Settled.allocateReplicaId (settled : Settled g) (documentId : String) {next : Nat} :
    Settled (g.setDocument documentId { g.documents documentId with nextReplicaId := next }) where
  regular := settled.regular
  present j document there := by
    unfold Present setDocument at there
    by_cases same : document = documentId
    · subst same
      simp only [Function.update_self] at there
      exact settled.present j document there
    · simp only [Function.update_of_ne same] at there
      exact settled.present j document there

theorem Settled.warmStarted (settled : Settled g) (here : (g.connections k).handlers[i]? = some h)
    (waits : h.stage = .warmStart) (succeeded : Bool) (role : SessionRole) :
    Settled (g.warmStarted k i h succeeded role) := by
  have early : h.stage ≠ .admitted := by
    rw [waits]
    nofun
  unfold WsGateway.warmStarted
  dsimp only
  split_ifs with failed fresh gone auth
  · have regular := (settled.regular k).closing .CLOSING (g.connections k).malformed
    exact settled.setConnection_bound regular.endHandler rfl nofun
  · exact settled.endHandler
  · exact settled.endHandler
  · exact (settled.allocateReplicaId h.documentId).setStage here early nofun
  · have alive : (g.connections k).readyState ≠ .CLOSED := by
      rw [not_not.mp gone]
      nofun
    exact (settled.allocateReplicaId h.documentId).admitSession here early alive _ _

theorem roleFound_ok {g' : WsGateway} {role : Option DocumentRole}
    (moved : g.step (.roleFound k i role) = .ok g') : ∃ h replicaId,
      (g.connections k).handlers[i]? = some h ∧ h.stage = .role replicaId ∧
        g' = g.roleFound k i h replicaId role := by
  obtain ⟨h, found, went⟩ := Throwing.ok_of_bind moved
  cases stage : h.stage with
  | warmStart | admitted =>
      rw [stage] at went
      cases went
  | role replicaId =>
      rw [stage] at went
      exact ⟨h, replicaId, handlerAt_ok.mp found, stage, (Except.ok.inj went).symm⟩

theorem lookupFailed_ok {g' : WsGateway} (moved : g.step (.lookupFailed k i) = .ok g') :
    g' = g.setConnection k (endHandler (g.connections k) i) := by
  obtain ⟨h, -, went⟩ := Throwing.ok_of_bind moved
  cases stage : h.stage with
  | warmStart | admitted =>
      rw [stage] at went
      cases went
  | role replicaId =>
      rw [stage] at went
      exact (Except.ok.inj went).symm

/-- A step that meets the condition keeps the invariant. -/
theorem settled_step {g' : WsGateway} (e : WsEvent) (settled : Settled g)
    (moved : g.step e = .ok g') (unhurried : g.Unhurried e) : Settled g' := by
  cases e with
  | message k frame =>
      simp only [step] at moved
      split_ifs at moved
      obtain rfl := Except.ok.inj moved
      exact settled.handleMessage unhurried
  | warmStarted k i succeeded role =>
      obtain ⟨h, found, went⟩ := Throwing.ok_of_bind moved
      split_ifs at went with waits
      obtain rfl := Except.ok.inj went
      exact settled.warmStarted (handlerAt_ok.mp found) waits succeeded role
  | roleFound k i role =>
      obtain ⟨h, replicaId, found, stage, rfl⟩ := roleFound_ok moved
      cases role with
      | none => exact settled.endHandler
      | some role =>
          have early : h.stage ≠ .admitted := by
            rw [stage]
            nofun
          exact settled.admitSession found early unhurried _ _
  | lookupFailed k i =>
      obtain rfl := lookupFailed_ok moved
      exact settled.endHandler
  | finished k i =>
      obtain ⟨h, -, went⟩ := Throwing.ok_of_bind moved
      split_ifs at went
      obtain rfl := Except.ok.inj went
      exact settled.endHandler
  | presenceStale k documentId =>
      obtain rfl := Except.ok.inj moved
      exact settled.leaveRoom
  | closing k =>
      obtain rfl := Except.ok.inj moved
      split_ifs with fresh
      · exact settled.setConnection_bound ((settled.regular k).closing _ _) rfl nofun
      · exact settled.setConnection_bound (settled.regular k) rfl id
  | closed k =>
      simp only [step] at moved
      split_ifs at moved
      obtain rfl := Except.ok.inj moved
      exact settled.handleClose

/-! ### The runs -/

/-- In a run without a second HELLO before the binding and without a role that comes after the close,
a connection is admitted with one session at most and leaves none behind. -/
theorem single_session (auth : Bool) (events : List WsEvent)
    (unhurried : Each step Unhurried (start auth) events) :
    Always step SingleSession (start auth) events :=
  Always.imp (fun _ settled => settled.singleSession)
    (always_of_each (fun _ e _ settled met moved => settled_step e settled moved met)
      (settled_start auth) unhurried)

/-- A connection that is admitted and closes while its roster is still to be sent. -/
def ordinary : List WsEvent :=
  [.message 0 (.hello "document" "user" "User" true), .warmStarted 0 0 true .EDITOR,
    .roleFound 0 0 (some .editor), .message 0 .other, .closed 0, .finished 0 0]

theorem single_session_ordinary : Always step SingleSession (start true) ordinary :=
  single_session true ordinary (by decide)

/-- The second HELLO comes while the first waits for the warm start. -/
def twoHellos : List WsEvent :=
  [.message 0 (.hello "document" "user" "User" true), .message 0 (.hello "other" "user" "User" true),
    .warmStarted 0 0 true .EDITOR, .warmStarted 0 1 true .EDITOR]

/-- The connection closes while the role is looked up. -/
def closedInLookup : List WsEvent :=
  [.message 0 (.hello "document" "user" "User" true), .warmStarted 0 0 true .EDITOR, .closed 0,
    .roleFound 0 0 (some .editor), .finished 0 0]

/-- Two HELLOs admit two sessions, and a role that is found after the close admits a session which is
never removed. -/
theorem sessions_left :
    ¬ Always step SingleSession (start false) twoHellos ∧
      ¬ Always step SingleSession (start true) closedInLookup := by
  constructor
  · intro always
    obtain ⟨g, ran, twice⟩ := exists_of_ends (run step (start false) twoHellos)
      (fun g => (g.connections 0).admissions = 2) (by decide)
    have once := (always.last ran).once 0
    rw [of_decide_eq_true twice] at once
    exact absurd once (by decide)
  · intro always
    obtain ⟨g, ran, left⟩ := exists_of_ends (run step (start true) closedInLookup)
      (fun g => (g.connections 0).readyState = .CLOSED ∧ (g.connections 0).handlers = [] ∧
        (g.documents "document").sessions.get 0 = some ⟨0, 1, "user", .EDITOR⟩) (by decide)
    obtain ⟨closed, idle, joined⟩ := of_decide_eq_true left
    exact (always.last ran).gone 0 closed idle "document"
      (Or.inl ⟨_, (Keyed.get_eq_some.mp joined).1, rfl⟩)

end WsGateway

end ConfluenceEditor
