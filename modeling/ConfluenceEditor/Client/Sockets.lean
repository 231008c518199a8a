/-
What a step of the client does to its socket.

The socket of a client changes where one is opened, lost or replaced by a new one, and nowhere else:
neither an edit nor a frame nor a job of the handshake's gate touches it.
-/

import ConfluenceEditor.Client.Connection

namespace ConfluenceEditor

/-! ### Edits -/

namespace SyncClient

open Throwing

variable {ws : Option ReadyState}

theorem keeps_modify {f : SyncClient → SyncClient} (same : ∀ c, (f c).ws = c.ws) :
    Keeps (fun c => c.ws = ws) (modify f : Method PUnit) := by
  intro c before
  show (f c).ws = ws
  rw [same]
  exact before

theorem keeps_ofEngine {α : Type} (outcome : Except String α) :
    Keeps (fun c => c.ws = ws) (ofEngine outcome) := by
  intro c before
  cases outcome with
  | ok a => exact before
  | error message => exact before

theorem keeps_openForEdit (nowMs : Nat) : Keeps (fun c => c.ws = ws) (openForEdit nowMs) := by
  intro c before
  rcases openForEdit_cases c nowMs with ⟨e, -, -, opened⟩ | ⟨-, message, stopped⟩
  · rw [opened]
    exact before
  · rw [stopped]
    exact before

theorem keeps_ws_sendFrame (ops : List Operation) :
    Keeps (fun c => c.ws = ws) (sendFrame ops) := by
  intro c before
  by_cases connecting : c.ws = some .CONNECTING
  · rw [sendFrame_connecting connecting]
    exact before
  · rw [sendFrame_ok connecting, stateOf_ok, transmit_ws]
    exact before

theorem keeps_sendOperation (op : Operation) : Keeps (fun c => c.ws = ws) (sendOperation op) :=
  Keeps.bind (keeps_modify fun _ => rfl) fun _ => keeps_ws_sendFrame [op]

theorem keeps_mintText (isClusterContinuing : Nat → Bool) (text : List Nat) :
    ∀ (e : Engine) (visibleIndex : Int),
      Keeps (fun c => c.ws = ws) (mintText isClusterContinuing e visibleIndex text) := by
  induction text with
  | nil => exact fun _ _ => keeps_pure _ _
  | cons codePoint text ih =>
      intro e visibleIndex
      refine Keeps.bind (keeps_ofEngine _) fun ⟨op, e⟩ => ?_
      refine Keeps.bind (keeps_modify fun _ => rfl) fun _ => ?_
      exact (ih e (visibleIndex + 1)).bind fun _ => keeps_pure _ _

theorem keeps_sendOutcome (outcome : UndoOutcome) :
    Keeps (fun c => c.ws = ws) (sendOutcome outcome) := by
  cases outcome with
  | applied op =>
      refine Keeps.bind (keeps_modify fun _ => rfl) fun _ => ?_
      exact (keeps_sendOperation op).bind fun _ => keeps_pure _ _
  | _ => exact keeps_pure _ _

/-- A call leaves the socket as it is. -/
theorem perform_ws (isClusterContinuing : Nat → Bool) (nowMs : Nat) (c : SyncClient)
    (call : EditCall) : (c.perform isClusterContinuing nowMs call).ws = c.ws := by
  cases call with
  | localInsert visibleIndex value bind =>
      refine Keeps.bind (keeps_openForEdit nowMs) (fun e => ?_) c rfl
      refine Keeps.bind (keeps_ofEngine _) fun ⟨op, e⟩ => ?_
      refine Keeps.bind (keeps_modify fun _ => rfl) fun _ => ?_
      exact (keeps_sendOperation _).bind fun _ => keeps_pure _ _
  | localInsertText visibleIndex text =>
      refine Keeps.bind (keeps_openForEdit nowMs) (fun e => ?_) c rfl
      refine (keeps_mintText isClusterContinuing text e visibleIndex).bind fun ops => ?_
      refine Keeps.bind (keeps_forM ops fun op _ => keeps_modify fun _ => rfl) fun _ => ?_
      exact (keeps_forM _ fun frame _ => keeps_ws_sendFrame _).bind fun _ => keeps_pure _ _
  | localDelete visibleIndex count =>
      refine Keeps.bind (keeps_openForEdit nowMs) (fun e => ?_) c rfl
      refine Keeps.bind (keeps_ofEngine _) fun ⟨op, e⟩ => ?_
      refine Keeps.bind (keeps_modify fun _ => rfl) fun _ => ?_
      refine (keeps_forM _ fun op _ => ?_).bind fun _ => keeps_pure _ _
      exact Keeps.bind (keeps_modify fun _ => rfl) fun _ => keeps_sendOperation _
  | undo | redo =>
      refine Keeps.bind (keeps_openForEdit nowMs) (fun e => ?_) c rfl
      refine Keeps.bind (keeps_ofEngine _) fun ⟨outcome, e⟩ => ?_
      refine Keeps.bind (keeps_modify fun _ => rfl) fun _ => ?_
      exact keeps_sendOutcome _

end SyncClient

/-! ### Frames, jobs and timers -/

namespace ClientConnection

variable {s s' : ClientConnection} {o : SyncClientOptions}

theorem sameLine_handleOpsMessage {c c' : ConnectedClient} {msg : OpsFrameMessage}
    (handled : c.handleOpsMessage msg = .ok c') : SameLine c c' := by
  cases msg with
  | ops seq ops =>
      simp only [ConnectedClient.handleOpsMessage, ConnectedClient.handleOps] at handled
      split_ifs at handled
      · obtain rfl := Except.ok.inj handled
        exact ⟨rfl, rfl⟩
      · obtain ⟨c₁, applied, done⟩ := Throwing.ok_of_bind handled
        obtain rfl := Except.ok.inj done
        obtain ⟨engine, waiting, confirmed, rfl⟩ := ConnectedClient.applyLive_frame applied
        exact ⟨rfl, rfl⟩
  | opAck acks =>
      obtain rfl := Except.ok.inj handled
      exact ⟨rfl, rfl⟩
  | opReject rejects detail =>
      obtain rfl := Except.ok.inj handled
      obtain ⟨engine, unacked, rejectedOps, same⟩ :=
        ConnectedClient.handleRejects_frame c detail rejects
      rw [same]
      exact ⟨rfl, rfl⟩

/-- The current socket is the one before. -/
structure SameSocket (s s' : ClientConnection) : Prop where
  socket : s'.socket = s.socket
  created : s'.created = s.created
  ws : s'.client.ws = s.client.ws

/-- What becomes of the current socket where no frame comes in and no socket opens. -/
inductive Moved (s s' : ClientConnection) : Prop where
  | stays (same : SameSocket s s')
      (jobs : s'.client.handshakeGate ≠ [] → s.client.handshakeGate ≠ [])
  | lost (socket : s'.socket = none) (created : s'.created = s.created)
  | replaced (socket : s'.socket = some s.created) (created : s'.created = s.created + 1)
      (ws : s'.client.ws = some .CONNECTING)

theorem moved_openSocket (same : SameSocket s s')
    (gate : s'.client.handshakeGate = s.client.handshakeGate) : Moved s (s'.openSocket o) := by
  unfold openSocket
  split_ifs
  · exact .stays ⟨same.socket, same.created, same.ws⟩ fun jobs => gate ▸ jobs
  · exact .replaced (congrArg some same.created) (congrArg (· + 1) same.created) rfl

theorem moved_beginConnect (same : SameSocket s s')
    (gate : s'.client.handshakeGate = s.client.handshakeGate) : Moved s (s'.beginConnect o) := by
  unfold beginConnect
  dsimp only
  split_ifs
  · exact moved_openSocket same gate
  · exact .stays ⟨same.socket, same.created, same.ws⟩ fun jobs => gate ▸ jobs
  · exact moved_openSocket ⟨same.socket, same.created, same.ws⟩ gate

theorem sameSocket_handleControl (msg : ControlMessage) : SameSocket s (s.handleControl msg) := by
  unfold handleControl
  split
  · rename_i client handled
    exact ⟨rfl, rfl, (sameLine_handleControl handled).1⟩
  · exact ⟨rfl, rfl, rfl⟩

/-- A job leaves the socket and the other jobs alone. -/
theorem sameSocket_runJob (nowMs : Nat) (job : Nat × GateJob) : SameSocket s (s.runJob nowMs job) ∧
    (s.runJob nowMs job).client.handshakeGate = s.client.handshakeGate := by
  obtain ⟨generation, job⟩ := job
  simp only [runJob]
  split
  · exact ⟨⟨rfl, rfl, rfl⟩, rfl⟩
  · split
    · rename_i alreadyHave
      unfold finishHandshakeAfterAlreadyHave
      split
      · exact ⟨⟨rfl, rfl, rfl⟩, rfl⟩
      · rename_i client finished
        have ws := (finish_line finished).1
        have gate := (ConnectedClient.sameGate_finish finished).1
        split_ifs
        · exact ⟨⟨rfl, rfl, ws⟩, gate⟩
        · exact ⟨⟨rfl, rfl, ws⟩, gate⟩
    · rename_i other
      split
      · rename_i client ran
        exact ⟨⟨rfl, rfl, (sameLine_runJob other ran).1⟩, (ConnectedClient.sameGate_runJob ran).1⟩
      · exact ⟨⟨rfl, rfl, rfl⟩, rfl⟩

/-- The event neither opens a socket nor brings a frame. -/
def inward : Event → Bool
  | .socketOpened _ | .frame _ _ => false
  | _ => true

theorem moved_step {e : Event} (stepped : s.step o e = .ok s') (plain : inward e = true) :
    Moved s s' := by
  cases e with
  | socketOpened socket => cases plain
  | frame socket msg => cases plain
  | connect nowMs =>
      obtain rfl := Except.ok.inj stepped
      exact moved_beginConnect ⟨rfl, rfl, rfl⟩ rfl
  | disconnect nowMs =>
      obtain rfl := Except.ok.inj stepped
      exact .lost rfl rfl
  | ticketFetched =>
      simp only [step] at stepped
      split_ifs at stepped
      obtain rfl := Except.ok.inj stepped
      exact .replaced rfl rfl rfl
  | storageOpened durable =>
      simp only [step] at stepped
      split_ifs at stepped
      obtain rfl := Except.ok.inj stepped
      cases durable with
      | none => exact moved_openSocket ⟨rfl, rfl, rfl⟩ rfl
      | some restored => exact moved_openSocket ⟨rfl, rfl, rfl⟩ rfl
  | reconnectDue id =>
      simp only [step] at stepped
      split_ifs at stepped
      obtain rfl := Except.ok.inj stepped
      exact moved_openSocket ⟨rfl, rfl, rfl⟩ rfl
  | socketClosed socket nowMs =>
      simp only [step] at stepped
      split_ifs at stepped
      · obtain rfl := Except.ok.inj stepped
        exact .stays ⟨rfl, rfl, rfl⟩ id
      · obtain rfl := Except.ok.inj stepped
        unfold onClose
        dsimp only
        split_ifs
        · exact .lost rfl rfl
        · exact .lost rfl rfl
  | job place nowMs =>
      simp only [step] at stepped
      split at stepped
      · cases stepped
      · rename_i job there
        obtain rfl := Except.ok.inj stepped
        have some : s.client.handshakeGate ≠ [] := List.ne_nil_of_mem (List.mem_of_getElem? there)
        obtain ⟨same, -⟩ := sameSocket_runJob (s := { s with client := { s.client with
          handshakeGate := s.client.handshakeGate.eraseIdx place } }) nowMs job
        exact .stays ⟨same.socket, same.created, same.ws⟩ fun _ => some

end ClientConnection

end ConfluenceEditor
