/-
What the participants of a presence room see of each other.

The frames that the room addresses to a connection pass its send queues, where one may be shed, and
the wire, before the overlay of the client gets them. Each link keeps the log of the frames addressed
to it, newest first, with a mark on those that were shed; the overlay of a drained link shows what is
left of the log (`Carried`), and the log tells who is in the room (`Told`). `views_correct` puts the
two together: as to one replica, only the roster, the join, the leave and the latest update matter.
-/

import ConfluenceEditor.Client.PresenceOverlay
import ConfluenceEditor.Library.Run
import ConfluenceEditor.Library.Throwing
import ConfluenceEditor.Server.PresenceRoom
import ConfluenceEditor.Server.SendQueues

namespace ConfluenceEditor

/-- The frames addressed to a connection, newest first, and whether they were shed. -/
abbrev PresenceLog := List (PresenceMessage × Bool)

/-- One connection with the client behind it. The overlay may show an earlier connection's room until
the roster comes. -/
structure PresenceLink where
  queues : ConnectionSendQueues PresenceMessage Unit
  /-- The presence frames that were handed to the transport and have not been received. -/
  wire : List PresenceMessage
  overlay : PresenceOverlay
  /-- What the overlay showed when the session joined. -/
  earlier : PresenceOverlay
  log : PresenceLog
  /-- The latest position that a replica has sent since the roster was sent to this connection. -/
  latest : Nat → Option PresencePosition

structure PresenceViews where
  room : PresenceRoom
  /-- The replica ids that have joined; none is allocated twice. -/
  replicaIds : List Nat
  /-- The connections that have joined; each joins once. -/
  links : Nat → Option PresenceLink

/-- `pressure` says which connections are backpressured. -/
inductive PresenceEvent where
  | join (p : PresenceParticipant) (earlier : PresenceOverlay) (pressure : Nat → Bool)
  | sendRoster (k : Nat) (pressure : Nat → Bool)
  | handleUpdate (k : Nat) (position : PresencePosition) (rateLimited : Bool) (pressure : Nat → Bool)
  | leave (k : Nat) (reason : PresenceLeaveReason) (pressure : Nat → Bool)
  /-- A frame on another channel. -/
  | enqueueOther (k : Nat) (frame : QueuedFrame PresenceMessage Unit)
  | sendSettled (k : Nat) (succeeded : Bool)
  | received (k : Nat)
  | close (k : Nat)

namespace PresenceLog

/-- The newest frame that has not been shed is shed. -/
def markShed : PresenceLog → PresenceLog
  | [] => []
  | (msg, true) :: older => (msg, true) :: markShed older
  | (msg, false) :: older => (msg, true) :: older

/-- The frames that were not shed, newest first. -/
def kept (log : PresenceLog) : List PresenceMessage :=
  (log.filter fun entry => !entry.2).map Prod.fst

/-- A roster is in the log. -/
def Rostered : PresenceLog → Prop
  | [] => False
  | (.presenceRoster _, _) :: _ => True
  | _ :: older => Rostered older

instance Rostered.decidable : (log : PresenceLog) → Decidable log.Rostered
  | [] => isFalse id
  | (.presenceRoster _, _) :: _ => isTrue trivial
  | (.presenceJoin _, _) :: older => Rostered.decidable older
  | (.presenceLeave .., _) :: older => Rostered.decidable older
  | (.presenceUpdate .., _) :: older => Rostered.decidable older

/-- Who is in the room according to the log. -/
def Lists (replicaId : Nat) : PresenceLog → Prop
  | [] => False
  | (.presenceRoster participants, _) :: _ => ∃ p ∈ participants, p.replicaId = replicaId
  | (.presenceJoin p, _) :: older => p.replicaId = replicaId ∨ Lists replicaId older
  | (.presenceLeave leaver _, _) :: older => leaver ≠ replicaId ∧ Lists replicaId older
  | (.presenceUpdate .., _) :: older => Lists replicaId older

/-- The latest roster and what came after it about the replica's membership has not been shed. -/
def Intact (replicaId : Nat) : PresenceLog → Prop
  | [] => False
  | (.presenceRoster _, shed) :: _ => shed = false
  | (.presenceJoin p, shed) :: older =>
      (p.replicaId = replicaId → shed = false) ∧ Intact replicaId older
  | (.presenceLeave leaver _, shed) :: older =>
      (leaver = replicaId → shed = false) ∧ Intact replicaId older
  | (.presenceUpdate .., _) :: older => Intact replicaId older

/-- The latest update of a replica since the roster and the replica's join, and whether it was
shed. -/
def lastUpdate (replicaId : Nat) : PresenceLog → Option (PresencePosition × Bool)
  | [] => none
  | (.presenceRoster _, _) :: _ => none
  | (.presenceJoin p, _) :: older =>
      if p.replicaId = replicaId then none else lastUpdate replicaId older
  | (.presenceLeave .., _) :: older => lastUpdate replicaId older
  | (.presenceUpdate mover anchor focus collapsed, shed) :: older =>
      if mover = replicaId then some (⟨anchor, focus, collapsed⟩, shed)
      else lastUpdate replicaId older

/-- The entry of a replica after the frames, the newest of which is the first. -/
def shown (replicaId : Nat) (earlier : Option ParticipantState) :
    List PresenceMessage → Option ParticipantState
  | [] => earlier
  | msg :: older => PresenceOverlay.slot replicaId (shown replicaId earlier older) msg

end PresenceLog

namespace PresenceLink

open ConnectionSendQueues

def new (earlier : PresenceOverlay) : PresenceLink :=
  ⟨.new, [], earlier, earlier, [], fun _ => none⟩

/-- The queues go on; what they hand over goes onto the wire. -/
def transmit (l : PresenceLink)
    (result : ConnectionSendQueues PresenceMessage Unit ×
      Option (QueuedFrame PresenceMessage Unit)) : PresenceLink :=
  { l with queues := result.1, wire := l.wire ++ presenceOf result.2 }

/-- The log when the next frame is enqueued: under backpressure the newest waiting frame is shed. -/
def logged (l : PresenceLink) (backpressured : Bool) : PresenceLog :=
  if backpressured && !l.queues.presenceQueue.isEmpty then l.log.markShed else l.log

/-- The room sends a frame to the connection. -/
def address (l : PresenceLink) (msg : PresenceMessage) (backpressured : Bool) : PresenceLink :=
  let sent := l.transmit (l.queues.enqueue (.presence msg) backpressured)
  { sent with log := (msg, false) :: l.logged backpressured }

/-- The client receives the first frame on the wire. -/
def receive (l : PresenceLink) : PresenceLink :=
  match l.wire with
  | [] => l
  | msg :: wire => { l with wire, overlay := l.overlay.handlePresenceEvent msg }

/-- All queued frames have been written and received. -/
def Drained (l : PresenceLink) : Prop :=
  l.queues.closed = false ∧ l.queues.presenceQueue = [] ∧ l.wire = []

instance (l : PresenceLink) : Decidable l.Drained :=
  inferInstanceAs (Decidable (_ ∧ _ ∧ _))

end PresenceLink

namespace PresenceViews

def start : PresenceViews := ⟨.empty, [], fun _ => none⟩

def setLink (s : PresenceViews) (k : Nat) (l : PresenceLink) : PresenceViews :=
  { s with links := Function.update s.links k (some l) }

/-- A frame for one connection is enqueued there. -/
def deliverTo (pressure : Nat → Bool) (links : Nat → Option PresenceLink)
    (frame : Nat × PresenceMessage) : Nat → Option PresenceLink :=
  Function.update links frame.1
    ((links frame.1).map fun l => l.address frame.2 (pressure frame.1))

def deliver (s : PresenceViews) (addressed : List (Nat × PresenceMessage)) (pressure : Nat → Bool) :
    PresenceViews :=
  { s with links := addressed.foldl (deliverTo pressure) s.links }

/-- The connection with this number. -/
def link (s : PresenceViews) (k : Nat) : Except String PresenceLink :=
  match s.links k with
  | some l => .ok l
  | none => .error "the session has not joined"

/-- A replica has sent a position that the server did not drop. -/
def noteMove (s : PresenceViews) (replicaId : Nat) (position : PresencePosition) : PresenceViews :=
  { s with
    links := fun k => (s.links k).map fun l =>
      { l with latest := Function.update l.latest replicaId (some position) } }

def step (s : PresenceViews) : PresenceEvent → Except String PresenceViews
  | .join p earlier pressure =>
      if p.replicaId ∈ s.replicaIds then .error "the replica id is taken"
      else if (s.links p.sessionId).isSome then .error "the session has joined already"
      else
        let joined := { s.deliver (s.room.join p).2 pressure with
          room := (s.room.join p).1
          replicaIds := p.replicaId :: s.replicaIds }
        .ok (joined.setLink p.sessionId (.new earlier))
  | .sendRoster k pressure => do
      let l ← s.link k
      let s := s.setLink k { l with latest := fun _ => none }
      .ok (s.deliver (s.room.sendRoster k) pressure)
  | .handleUpdate k position rateLimited pressure =>
      match s.room.participants.get k with
      | none => .ok s
      | some p =>
          if rateLimited then .ok s
          else .ok ((s.noteMove p.replicaId position).deliver
            (s.room.handleUpdate k position.anchor position.focus position.collapsed rateLimited) pressure)
  | .leave k reason pressure =>
      .ok { s.deliver (s.room.leave k reason).2 pressure with room := (s.room.leave k reason).1 }
  | .enqueueOther k frame => do
      let l ← s.link k
      if ConnectionSendQueues.presenceOf (some frame) = [] then
        .ok (s.setLink k (l.transmit (l.queues.enqueue frame false)))
      else .error "a presence frame"
  | .sendSettled k succeeded => do
      let l ← s.link k
      if l.queues.draining then .ok (s.setLink k (l.transmit (l.queues.sendSettled succeeded)))
      else .error "no frame is being written"
  | .received k => do
      let l ← s.link k
      .ok (s.setLink k l.receive)
  | .close k => do
      let l ← s.link k
      .ok (s.setLink k { l with queues := l.queues.close })

/-! ### The property -/

/-- What a drained connection of a participant shows of a replica is right, unless the frames that say
so were shed: whether the replica is in the room, and the latest position that it has sent since the
roster. -/
def ViewsCorrect (s : PresenceViews) : Prop :=
  ∀ k l, s.links k = some l → (∃ p ∈ s.room.participants, p.sessionId = k) → l.Drained →
    ∀ replicaId, l.log.Intact replicaId →
      ((l.overlay.get replicaId).isSome ↔ ∃ p ∈ s.room.participants, p.replicaId = replicaId) ∧
      ∀ p ∈ s.room.participants, p.replicaId = replicaId → p.sessionId ≠ k →
        ∀ position, l.latest replicaId = some position →
          (∀ update, l.log.lastUpdate replicaId = some update → update.2 = false) →
            ∃ entry, l.overlay.get replicaId = some entry ∧ entry.Shows position

end PresenceViews

/-! ### What a log says -/

namespace PresenceLog

variable {log : PresenceLog} {replicaId : Nat} {msg : PresenceMessage} {shed : Bool}

theorem kept_markShed (log : PresenceLog) : kept log.markShed = (kept log).tail := by
  induction log with
  | nil => rfl
  | cons entry older ih =>
      obtain ⟨msg, shed⟩ := entry
      cases shed with
      | true => exact ih
      | false => rfl

theorem rostered_markShed (log : PresenceLog) : log.markShed.Rostered ↔ log.Rostered := by
  induction log with
  | nil => exact Iff.rfl
  | cons entry older ih =>
      obtain ⟨msg, shed⟩ := entry
      cases shed with
      | false => cases msg <;> exact Iff.rfl
      | true =>
          cases msg with
          | presenceRoster => exact Iff.rfl
          | presenceJoin | presenceLeave | presenceUpdate => exact ih

theorem lists_markShed (log : PresenceLog) : log.markShed.Lists replicaId ↔ log.Lists replicaId := by
  induction log with
  | nil => exact Iff.rfl
  | cons entry older ih =>
      obtain ⟨msg, shed⟩ := entry
      cases shed with
      | false => cases msg <;> exact Iff.rfl
      | true =>
          cases msg with
          | presenceRoster => exact Iff.rfl
          | presenceJoin p => exact or_congr_right ih
          | presenceLeave leaver reason => exact and_congr_right fun _ => ih
          | presenceUpdate => exact ih

theorem lastUpdate_markShed (log : PresenceLog) :
    (log.markShed.lastUpdate replicaId).map Prod.fst = (log.lastUpdate replicaId).map Prod.fst := by
  induction log with
  | nil => rfl
  | cons entry older ih =>
      obtain ⟨msg, shed⟩ := entry
      cases shed with
      | false =>
          cases msg with
          | presenceRoster | presenceJoin | presenceLeave => rfl
          | presenceUpdate mover anchor focus collapsed =>
              simp only [markShed, lastUpdate]
              split_ifs <;> rfl
      | true =>
          cases msg with
          | presenceRoster => rfl
          | presenceLeave => exact ih
          | presenceJoin p =>
              simp only [markShed, lastUpdate]
              split_ifs
              · rfl
              · exact ih
          | presenceUpdate mover anchor focus collapsed =>
              simp only [markShed, lastUpdate]
              split_ifs
              · rfl
              · exact ih

theorem Intact.rostered (intact : log.Intact replicaId) : log.Rostered := by
  induction log with
  | nil => exact intact
  | cons entry older ih =>
      obtain ⟨msg, shed⟩ := entry
      cases msg with
      | presenceRoster => exact trivial
      | presenceJoin p => exact ih intact.2
      | presenceLeave leaver reason => exact ih intact.2
      | presenceUpdate => exact ih intact

/-- The frames that were not shed, one at a time. -/
theorem shown_kept (earlier : Option ParticipantState) (older : PresenceLog) :
    shown replicaId earlier (kept ((msg, shed) :: older)) =
      if shed then shown replicaId earlier (kept older)
      else PresenceOverlay.slot replicaId (shown replicaId earlier (kept older)) msg := by
  cases shed <;> rfl

/-- The overlay has an entry for the replicas that the log lists. -/
theorem Intact.isSome_shown (intact : log.Intact replicaId) (earlier : Option ParticipantState) :
    (shown replicaId earlier log.kept).isSome ↔ log.Lists replicaId := by
  induction log with
  | nil => exact intact.elim
  | cons entry older ih =>
      obtain ⟨msg, shed⟩ := entry
      rw [shown_kept]
      cases msg with
      | presenceRoster participants =>
          obtain rfl : shed = false := intact
          show (Option.map _ _).isSome ↔ ∃ p ∈ participants, p.replicaId = replicaId
          rw [Option.isSome_map, List.find?_isSome]
          simp only [List.mem_reverse, decide_eq_true_eq]
      | presenceJoin p =>
          have rest := ih intact.2
          show _ ↔ p.replicaId = replicaId ∨ Lists replicaId older
          by_cases here : p.replicaId = replicaId
          · rw [intact.1 here]
            simp [PresenceOverlay.slot, here]
          · simp [PresenceOverlay.slot, here, rest]
      | presenceLeave leaver reason =>
          have rest := ih intact.2
          show _ ↔ leaver ≠ replicaId ∧ Lists replicaId older
          by_cases here : leaver = replicaId
          · rw [intact.1 here]
            simp [PresenceOverlay.slot, here]
          · simp [PresenceOverlay.slot, here, rest]
      | presenceUpdate mover anchor focus collapsed =>
          have rest := ih intact
          show _ ↔ Lists replicaId older
          by_cases here : mover = replicaId
          · cases shed <;> simp [PresenceOverlay.slot, here, rest]
          · simp [PresenceOverlay.slot, here, rest]

/-- An entry shows the latest update, if that was not shed. -/
theorem shows_lastUpdate {earlier : Option ParticipantState} {entry : ParticipantState}
    {position : PresencePosition} (there : shown replicaId earlier log.kept = some entry)
    (last : log.lastUpdate replicaId = some (position, false)) : entry.Shows position := by
  induction log with
  | nil => cases last
  | cons frame older ih =>
      obtain ⟨msg, shed⟩ := frame
      rw [shown_kept] at there
      cases msg with
      | presenceRoster participants => cases last
      | presenceJoin p =>
          simp only [lastUpdate] at last
          split_ifs at last with here
          refine ih ?_ last
          simpa [PresenceOverlay.slot, here] using there
      | presenceLeave leaver reason =>
          refine ih ?_ last
          cases shed with
          | true => exact there
          | false =>
              simp only [PresenceOverlay.slot, Bool.false_eq_true, if_false] at there
              split_ifs at there
              exact there
      | presenceUpdate mover anchor focus collapsed =>
          simp only [lastUpdate] at last
          split_ifs at last with here
          · obtain ⟨rfl, rfl⟩ := Prod.mk.inj (Option.some.inj last)
            simp only [PresenceOverlay.slot, Bool.false_eq_true, if_false, if_pos here] at there
            obtain ⟨before, -, rfl⟩ := Option.map_eq_some_iff.mp there
            exact before.moved_shows _
          · refine ih ?_ last
            simpa [PresenceOverlay.slot, here] using there

end PresenceLog

/-! ### What a link carries -/

namespace PresenceLink

open ConnectionSendQueues PresenceLog

variable {l : PresenceLink} {msg : PresenceMessage} {backpressured : Bool}

/-- As long as the queues are open, what was not shed of the log has been received or is on the wire
or waits, and the overlay shows what has been received. -/
def Carried (l : PresenceLink) : Prop :=
  l.queues.closed = false → ∃ received,
    kept l.log = l.queues.presenceQueue.reverse ++ (l.wire.reverse ++ received) ∧
      ∀ replicaId, l.overlay.get replicaId = shown replicaId (l.earlier.get replicaId) received

theorem carried_new (earlier : PresenceOverlay) : (new earlier).Carried :=
  fun _ => ⟨[], rfl, fun _ => rfl⟩

/-- The queues hand over presence frames in order. -/
theorem Carried.transmit (carried : l.Carried)
    {result : ConnectionSendQueues PresenceMessage Unit × Option (QueuedFrame PresenceMessage Unit)}
    (open_before : result.1.closed = false → l.queues.closed = false)
    (order : result.1.closed = false →
      presenceOf result.2 ++ result.1.presenceQueue = l.queues.presenceQueue) :
    (l.transmit result).Carried := by
  intro alive
  obtain ⟨received, rest, shows⟩ := carried (open_before alive)
  refine ⟨received, rest.trans ?_, shows⟩
  show _ = result.1.presenceQueue.reverse ++ ((l.wire ++ presenceOf result.2).reverse ++ received)
  rw [← order alive, List.reverse_append, List.reverse_append, List.append_assoc, List.append_assoc]

theorem kept_logged (backpressured : Bool) (alive : l.queues.closed = false) (carried : l.Carried) :
    ∃ received, kept (l.logged backpressured) =
        (if backpressured then shedForBackpressure l.queues.presenceQueue
          else l.queues.presenceQueue).reverse ++ (l.wire.reverse ++ received) ∧
      ∀ replicaId, l.overlay.get replicaId = shown replicaId (l.earlier.get replicaId) received := by
  obtain ⟨received, rest, shows⟩ := carried alive
  refine ⟨received, ?_, shows⟩
  unfold logged
  cases backpressured with
  | false => exact rest
  | true =>
      cases waiting : l.queues.presenceQueue with
      | nil =>
          rw [waiting] at rest
          exact rest
      | cons first others =>
          have nonempty : (first :: others).reverse ≠ [] :=
            List.reverse_ne_nil_iff.mpr (List.cons_ne_nil _ _)
          show kept l.log.markShed = ((first :: others).dropLast).reverse ++ _
          rw [kept_markShed, rest, waiting, List.tail_append_of_ne_nil nonempty, List.tail_reverse]

theorem Carried.address (carried : l.Carried) : (l.address msg backpressured).Carried := by
  intro closed
  have alive : l.queues.closed = false := enqueue_closed.symm.trans closed
  obtain ⟨received, rest, shows⟩ := kept_logged backpressured alive carried
  refine ⟨received, ?_, shows⟩
  have order := enqueue_presence msg backpressured alive
  have reversed := congrArg List.reverse order
  rw [List.reverse_append, List.reverse_append] at reversed
  show msg :: kept (l.logged backpressured) =
    (l.queues.enqueue _ backpressured).1.presenceQueue.reverse ++
      ((l.wire ++ presenceOf (l.queues.enqueue (.presence msg) backpressured).2).reverse ++ received)
  rw [List.reverse_append, List.append_assoc, ← List.append_assoc, reversed, rest]
  rfl

theorem Carried.receive (carried : l.Carried) : l.receive.Carried := by
  unfold PresenceLink.receive
  cases wire : l.wire with
  | nil => exact carried
  | cons msg others =>
      intro alive
      obtain ⟨received, rest, shows⟩ := carried alive
      refine ⟨msg :: received, ?_, fun replicaId => ?_⟩
      · rw [wire, List.reverse_cons, List.append_assoc] at rest
        exact rest
      · show (l.overlay.handlePresenceEvent msg).get replicaId = _
        rw [PresenceOverlay.get_handle, shows]
        rfl

/-- A drained link shows what was not shed of its log. -/
theorem Carried.drained (carried : l.Carried) (drained : l.Drained) (replicaId : Nat) :
    l.overlay.get replicaId = shown replicaId (l.earlier.get replicaId) (kept l.log) := by
  obtain ⟨alive, waiting, wire⟩ := drained
  obtain ⟨received, rest, shows⟩ := carried alive
  rw [waiting, wire] at rest
  rw [shows, rest]
  rfl

end PresenceLink

/-! ### What is delivered -/

namespace PresenceViews

variable {s : PresenceViews} {k : Nat} {l : PresenceLink} {pressure : Nat → Bool}
  {addressed : List (Nat × PresenceMessage)} {msg : PresenceMessage}

theorem deliverTo_self {links : Nat → Option PresenceLink} :
    deliverTo pressure links (k, msg) k = (links k).map fun l => l.address msg (pressure k) :=
  Function.update_self ..

theorem deliverTo_other {links : Nat → Option PresenceLink} {j : Nat} (other : k ≠ j) :
    deliverTo pressure links (j, msg) k = links k :=
  Function.update_of_ne other ..

/-- A connection that nothing is addressed to keeps its link. -/
theorem deliver_absent (absent : k ∉ addressed.map Prod.fst) :
    (s.deliver addressed pressure).links k = s.links k := by
  show addressed.foldl (deliverTo pressure) s.links k = s.links k
  generalize s.links = links
  induction addressed generalizing links with
  | nil => rfl
  | cons frame addressed ih =>
      have other : k ≠ frame.1 := fun same => absent (same ▸ List.mem_cons_self)
      have rest : k ∉ addressed.map Prod.fst := fun there => absent (List.mem_cons_of_mem _ there)
      exact (ih rest _).trans (deliverTo_other other)

/-- A frame that is addressed once is enqueued once. -/
theorem deliver_once (once : (addressed.map Prod.fst).Nodup) (member : (k, msg) ∈ addressed) :
    (s.deliver addressed pressure).links k =
      (s.links k).map fun l => l.address msg (pressure k) := by
  obtain ⟨before, after, rfl⟩ := List.append_of_mem member
  rw [List.map_append, List.map_cons, List.nodup_middle, List.nodup_cons] at once
  have first : k ∉ before.map Prod.fst := fun there => once.1 (List.mem_append_left _ there)
  have second : k ∉ after.map Prod.fst := fun there => once.1 (List.mem_append_right _ there)
  have untouched : (s.deliver before pressure).links k = s.links k := deliver_absent first
  show (before ++ (k, msg) :: after).foldl (deliverTo pressure) s.links k = _
  rw [List.foldl_append, List.foldl_cons]
  refine (deliver_absent (s := { s with links := deliverTo pressure _ (k, msg) }) second).trans ?_
  exact deliverTo_self.trans (congrArg _ untouched)

/-- The connection belongs to a participant of the room. -/
def InRoom (room : PresenceRoom) (k : Nat) : Prop := ∃ p ∈ room.participants, p.sessionId = k

theorem deliver_broadcast {room : PresenceRoom} {sender : Nat} (inRoom : InRoom room k)
    (other : k ≠ sender) :
    (s.deliver (room.broadcastExcept sender msg) pressure).links k =
      (s.links k).map fun l => l.address msg (pressure k) :=
  deliver_once PresenceRoom.nodup_broadcastExcept
    (PresenceRoom.mem_broadcastExcept.mpr ⟨rfl, other, inRoom⟩)

theorem deliver_outside {room : PresenceRoom} {sender : Nat} (outside : InRoom room k → k = sender) :
    (s.deliver (room.broadcastExcept sender msg) pressure).links k = s.links k := by
  apply deliver_absent
  intro there
  obtain ⟨⟨recipient, msg'⟩, member, rfl⟩ := List.mem_map.mp there
  obtain ⟨-, other, inRoom⟩ := PresenceRoom.mem_broadcastExcept.mp member
  exact other (outside inRoom)

/-- After a broadcast a link is as before or has been addressed. -/
theorem deliver_cases {room : PresenceRoom} {sender : Nat}
    (here : (s.deliver (room.broadcastExcept sender msg) pressure).links k = some l) :
    (InRoom room k → k = sender) ∧ s.links k = some l ∨
      InRoom room k ∧ k ≠ sender ∧ ∃ l₀, s.links k = some l₀ ∧ l = l₀.address msg (pressure k) := by
  by_cases addressed : InRoom room k ∧ k ≠ sender
  · rw [deliver_broadcast addressed.1 addressed.2] at here
    obtain ⟨l₀, before, rfl⟩ := Option.map_eq_some_iff.mp here
    exact Or.inr ⟨addressed.1, addressed.2, l₀, before, rfl⟩
  · have outside : InRoom room k → k = sender := fun inRoom =>
      not_not.mp fun other => addressed ⟨inRoom, other⟩
    rw [deliver_outside outside] at here
    exact Or.inl ⟨outside, here⟩

/-! ### The invariant -/

/-- The log of a participant's link lists the room, and ends with the latest positions. -/
structure Told (room : PresenceRoom) (k : Nat) (l : PresenceLink) : Prop where
  lists : l.log.Rostered → ∀ replicaId,
    l.log.Lists replicaId ↔ ∃ p ∈ room.participants, p.replicaId = replicaId
  latest : l.log.Rostered → ∀ p ∈ room.participants, p.sessionId ≠ k →
    ∀ position, l.latest p.replicaId = some position →
      (l.log.lastUpdate p.replicaId).map Prod.fst = some position

/-- A link carries its log, which is that of a participant if its connection belongs to one. -/
structure LinkSound (room : PresenceRoom) (replicaIds : List Nat) (k : Nat) (l : PresenceLink) :
    Prop where
  carried : l.Carried
  told : InRoom room k → Told room k l
  moved : ∀ replicaId, l.latest replicaId ≠ none → replicaId ∈ replicaIds

structure Consistent (s : PresenceViews) : Prop where
  fresh : ∀ p ∈ s.room.participants, p.replicaId ∈ s.replicaIds
  distinct : ∀ p ∈ s.room.participants, ∀ q ∈ s.room.participants, p.replicaId = q.replicaId → p = q
  joined : ∀ k, InRoom s.room k → s.links k ≠ none
  links : ∀ k l, s.links k = some l → LinkSound s.room s.replicaIds k l

theorem consistent_start : Consistent start where
  fresh p inside := absurd inside Keyed.not_mem_empty
  distinct p inside := absurd inside Keyed.not_mem_empty
  joined := by
    rintro k ⟨p, inside, -⟩
    exact absurd inside Keyed.not_mem_empty
  links := nofun

theorem Consistent.viewsCorrect (consistent : Consistent s) : ViewsCorrect s := by
  intro k l here inRoom drained replicaId intact
  have told := (consistent.links k l here).told inRoom
  have view := (consistent.links k l here).carried.drained drained replicaId
  rw [view]
  have present := intact.isSome_shown (l.earlier.get replicaId)
  refine ⟨present.trans (told.lists intact.rostered replicaId), ?_⟩
  rintro p inside rfl other position moved unshed
  have last := told.latest intact.rostered p inside other position moved
  obtain ⟨⟨last_position, shed⟩, found, rfl⟩ := Option.map_eq_some_iff.mp last
  obtain rfl := unshed _ found
  have listed := (told.lists intact.rostered p.replicaId).mpr ⟨p, inside, rfl⟩
  obtain ⟨entry, there⟩ := Option.isSome_iff_exists.mp (present.mpr listed)
  exact ⟨entry, there, PresenceLog.shows_lastUpdate there found⟩

/-! ### The frames of the room, as the logs record them -/

theorem logged_cases (l : PresenceLink) (backpressured : Bool) :
    l.logged backpressured = l.log ∨ l.logged backpressured = l.log.markShed := by
  unfold PresenceLink.logged
  split_ifs
  · exact Or.inr rfl
  · exact Or.inl rfl

theorem rostered_logged {backpressured : Bool} :
    (l.logged backpressured).Rostered ↔ l.log.Rostered := by
  rcases logged_cases l backpressured with same | shed
  · rw [same]
  · rw [shed, PresenceLog.rostered_markShed]

theorem lists_logged {backpressured : Bool} {replicaId : Nat} :
    (l.logged backpressured).Lists replicaId ↔ l.log.Lists replicaId := by
  rcases logged_cases l backpressured with same | shed
  · rw [same]
  · rw [shed, PresenceLog.lists_markShed]

theorem lastUpdate_logged {backpressured : Bool} {replicaId : Nat} :
    ((l.logged backpressured).lastUpdate replicaId).map Prod.fst =
      (l.log.lastUpdate replicaId).map Prod.fst := by
  rcases logged_cases l backpressured with same | shed
  · rw [same]
  · rw [shed, PresenceLog.lastUpdate_markShed]

variable {room : PresenceRoom} {p : PresenceParticipant} {backpressured : Bool}

theorem Told.join (told : Told room k l) (absent : ¬ InRoom room p.sessionId)
    (fresh : ∀ q ∈ room.participants, q.replicaId ≠ p.replicaId)
    (unmoved : l.latest p.replicaId = none) :
    Told (room.join p).1 k (l.address (.presenceJoin p.entry) backpressured) where
  lists rostered replicaId := by
    show p.replicaId = replicaId ∨ (l.logged backpressured).Lists replicaId ↔ _
    rw [lists_logged, told.lists (rostered_logged.mp rostered)]
    constructor
    · rintro (rfl | ⟨q, inside, named⟩)
      · exact ⟨p, PresenceRoom.mem_join.mpr (Or.inl rfl), rfl⟩
      · exact ⟨q, PresenceRoom.mem_join.mpr (Or.inr ⟨inside, fun same => absent ⟨q, inside, same⟩⟩),
          named⟩
    · rintro ⟨q, inside, named⟩
      rcases PresenceRoom.mem_join.mp inside with rfl | ⟨before, -⟩
      · exact Or.inl named
      · exact Or.inr ⟨q, before, named⟩
  latest rostered q inside other position moved := by
    rcases PresenceRoom.mem_join.mp inside with rfl | ⟨before, -⟩
    · exact absurd moved (by rw [PresenceLink.address, PresenceLink.transmit, unmoved]; nofun)
    · show ((if p.replicaId = q.replicaId then none else
        (l.logged backpressured).lastUpdate q.replicaId).map Prod.fst) = _
      rw [if_neg fun same => fresh q before same.symm, lastUpdate_logged]
      exact told.latest (rostered_logged.mp rostered) q before other position moved

theorem Told.leave (told : Told room k l) (inside : p ∈ room.participants)
    (distinct : ∀ p ∈ room.participants, ∀ q ∈ room.participants, p.replicaId = q.replicaId → p = q)
    {reason reason' : PresenceLeaveReason} :
    Told (room.leave p.sessionId reason).1 k (l.address (.presenceLeave p.replicaId reason')
      backpressured) where
  lists rostered replicaId := by
    show p.replicaId ≠ replicaId ∧ (l.logged backpressured).Lists replicaId ↔ _
    rw [lists_logged, told.lists (rostered_logged.mp rostered)]
    constructor
    · rintro ⟨other, q, there, rfl⟩
      refine ⟨q, PresenceRoom.mem_leave.mpr ⟨there, fun same => other ?_⟩, rfl⟩
      rw [Keyed.eq_of_key there inside same]
    · rintro ⟨q, left, rfl⟩
      obtain ⟨there, other⟩ := PresenceRoom.mem_leave.mp left
      refine ⟨fun same => other ?_, q, there, rfl⟩
      rw [distinct p inside q there same]
  latest rostered q left other position moved := by
    show ((l.logged backpressured).lastUpdate q.replicaId).map Prod.fst = _
    rw [lastUpdate_logged]
    have stayed := (PresenceRoom.mem_leave.mp left).1
    exact told.latest (rostered_logged.mp rostered) q stayed other position
      moved

theorem told_roster {entries : List PresenceRosterEntry}
    (complete : entries = room.participants.entries.map PresenceParticipant.entry)
    (reset : l.latest = fun _ => none) :
    Told room k (l.address (.presenceRoster entries) backpressured) where
  lists _ replicaId := by
    show (∃ entry ∈ entries, entry.replicaId = replicaId) ↔ _
    rw [complete]
    constructor
    · rintro ⟨entry, member, named⟩
      obtain ⟨q, inside, rfl⟩ := List.mem_map.mp member
      exact ⟨q, inside, named⟩
    · rintro ⟨q, inside, named⟩
      exact ⟨q.entry, List.mem_map.mpr ⟨q, inside, rfl⟩, named⟩
  latest _ q _ _ position moved := by
    rw [PresenceLink.address, PresenceLink.transmit, reset] at moved
    cases moved

/-- The others are sent the new position. -/
theorem Told.update (told : Told room k l) (position : PresencePosition) :
    Told room k ({ l with latest := Function.update l.latest p.replicaId (some position) }.address
      (.presenceUpdate p.replicaId position.anchor position.focus position.collapsed)
      backpressured) where
  lists rostered replicaId := by
    show (PresenceLink.logged _ backpressured).Lists replicaId ↔ _
    rw [lists_logged]
    exact told.lists (rostered_logged.mp rostered) replicaId
  latest rostered q inside other latest moved := by
    show (if p.replicaId = q.replicaId then some (position, false) else
      (PresenceLink.logged _ backpressured).lastUpdate q.replicaId).map Prod.fst = _
    have moved' : Function.update l.latest p.replicaId (some position) q.replicaId = some latest := moved
    by_cases mover : p.replicaId = q.replicaId
    · rw [← mover, Function.update_self] at moved'
      rw [if_pos mover]
      exact moved'
    · rw [Function.update_of_ne (Ne.symm mover)] at moved'
      rw [if_neg mover, lastUpdate_logged]
      exact told.latest (rostered_logged.mp rostered) q inside other latest moved'

/-- The mover itself is not sent its position. -/
theorem Told.noteMove (told : Told room k l) (inside : p ∈ room.participants) (own : p.sessionId = k)
    (distinct : ∀ p ∈ room.participants, ∀ q ∈ room.participants, p.replicaId = q.replicaId → p = q)
    (position : PresencePosition) :
    Told room k { l with latest := Function.update l.latest p.replicaId (some position) } where
  lists := told.lists
  latest rostered q there other latest moved := by
    have mover : q.replicaId ≠ p.replicaId := by
      intro same
      rw [distinct q there p inside same] at other
      exact other own
    have moved' : Function.update l.latest p.replicaId (some position) q.replicaId = some latest := moved
    rw [Function.update_of_ne mover] at moved'
    exact told.latest rostered q there other latest moved'

/-! ### The steps -/

theorem link_ok : s.link k = .ok l ↔ s.links k = some l := by
  unfold link
  cases s.links k with
  | none => simp
  | some other => simp

theorem setLink_links {j : Nat} {l' m : PresenceLink} (there : (s.setLink k l').links j = some m) :
    j = k ∧ m = l' ∨ j ≠ k ∧ s.links j = some m := by
  change Function.update s.links k (some l') j = some m at there
  by_cases same : j = k
  · rw [same, Function.update_self] at there
    exact Or.inl ⟨same, (Option.some.inj there).symm⟩
  · rw [Function.update_of_ne same] at there
    exact Or.inr ⟨same, there⟩

theorem setLink_joined {j : Nat} {l' : PresenceLink} (joined : j = k ∨ s.links j ≠ none) :
    (s.setLink k l').links j ≠ none := by
  show Function.update s.links k (some l') j ≠ none
  by_cases same : j = k
  · rw [same, Function.update_self]
    nofun
  · rw [Function.update_of_ne same]
    exact joined.resolve_left same

/-- A link is replaced by a sound one. -/
theorem Consistent.setLink (consistent : Consistent s) {l' : PresenceLink}
    (sound : LinkSound s.room s.replicaIds k l') : Consistent (s.setLink k l') where
  fresh := consistent.fresh
  distinct := consistent.distinct
  joined j inRoom := setLink_joined (Or.inr (consistent.joined j inRoom))
  links j m there := by
    rcases setLink_links there with ⟨rfl, rfl⟩ | ⟨-, before⟩
    · exact sound
    · exact consistent.links j m before

/-- Between two frames of the room, a link changes its queues, its wire and its overlay only. -/
theorem LinkSound.carry {room : PresenceRoom} {replicaIds : List Nat}
    (sound : LinkSound room replicaIds k l) {l' : PresenceLink} (log : l'.log = l.log)
    (latest : l'.latest = l.latest) (carried : l'.Carried) : LinkSound room replicaIds k l' where
  carried := carried
  told inRoom := by
    constructor
    · rw [log]
      exact (sound.told inRoom).lists
    · rw [log, latest]
      exact (sound.told inRoom).latest
  moved := by
    rw [latest]
    exact sound.moved

theorem Consistent.join (consistent : Consistent s) {earlier : PresenceOverlay}
    (fresh : p.replicaId ∉ s.replicaIds) (unjoined : s.links p.sessionId = none) :
    Consistent ({ s.deliver (s.room.join p).2 pressure with
      room := (s.room.join p).1
      replicaIds := p.replicaId :: s.replicaIds }.setLink p.sessionId (.new earlier)) := by
  have absent : ¬ InRoom s.room p.sessionId := fun inRoom => consistent.joined _ inRoom unjoined
  have new : ∀ q ∈ s.room.participants, q.replicaId ≠ p.replicaId := fun q inside same =>
    fresh (same ▸ consistent.fresh q inside)
  constructor
  · intro q inside
    rcases PresenceRoom.mem_join.mp inside with rfl | ⟨before, -⟩
    · exact List.mem_cons_self
    · exact List.mem_cons_of_mem _ (consistent.fresh q before)
  · intro q inside q' inside' same
    rcases PresenceRoom.mem_join.mp inside with rfl | ⟨before, -⟩
    · rcases PresenceRoom.mem_join.mp inside' with rfl | ⟨before', -⟩
      · rfl
      · exact absurd same.symm (new q' before')
    · rcases PresenceRoom.mem_join.mp inside' with rfl | ⟨before', -⟩
      · exact absurd same (new q before)
      · exact consistent.distinct q before q' before' same
  · rintro j ⟨q, inside, rfl⟩
    apply setLink_joined
    rcases PresenceRoom.mem_join.mp inside with rfl | ⟨before, other⟩
    · exact Or.inl rfl
    · refine Or.inr fun gone => consistent.joined _ ⟨q, before, rfl⟩ ?_
      have sent := gone
      rw [PresenceRoom.join, deliver_broadcast ⟨q, before, rfl⟩ other] at sent
      exact Option.map_eq_none_iff.mp sent
  · intro j m there
    rcases setLink_links there with ⟨rfl, rfl⟩ | ⟨other, before⟩
    · exact ⟨PresenceLink.carried_new earlier, fun _ => ⟨nofun, nofun⟩,
        fun _ moved => absurd rfl moved⟩
    · rcases deliver_cases before with ⟨outside, here⟩ | ⟨inRoom, -, m₀, here, rfl⟩
      · have sound := consistent.links j m here
        refine ⟨sound.carried, ?_, fun r moved => List.mem_cons_of_mem _ (sound.moved r moved)⟩
        rintro ⟨q, inside, rfl⟩
        rcases PresenceRoom.mem_join.mp inside with rfl | ⟨before, -⟩
        · exact absurd rfl other
        · exact absurd (outside ⟨q, before, rfl⟩) other
      · have sound := consistent.links j m₀ here
        have unmoved : m₀.latest p.replicaId = none :=
          not_not.mp fun moved => fresh (sound.moved _ moved)
        exact ⟨sound.carried.address, fun _ => (sound.told inRoom).join absent new unmoved,
          fun r moved => List.mem_cons_of_mem _ (sound.moved r moved)⟩

theorem Consistent.leave (consistent : Consistent s) {reason : PresenceLeaveReason} :
    Consistent { s.deliver (s.room.leave k reason).2 pressure with
      room := (s.room.leave k reason).1 } := by
  have before : ∀ q ∈ (s.room.leave k reason).1.participants, q ∈ s.room.participants :=
    fun q left => (PresenceRoom.mem_leave.mp left).1
  have remains : ∀ j, InRoom (s.room.leave k reason).1 j → InRoom s.room j ∧ j ≠ k := by
    rintro j ⟨q, left, rfl⟩
    obtain ⟨inside, other⟩ := PresenceRoom.mem_leave.mp left
    exact ⟨⟨q, inside, rfl⟩, other⟩
  rcases s.room.leave_cases k reason with ⟨-, same⟩ | ⟨p, inside, rfl, sent⟩
  · rw [same]
    exact consistent
  · rw [sent]
    constructor
    · exact fun q left => consistent.fresh q (before q left)
    · exact fun q left q' left' => consistent.distinct q (before q left) q' (before q' left')
    · intro j inRoom gone
      change (s.deliver _ pressure).links j = none at gone
      rw [deliver_broadcast inRoom (remains j inRoom).2] at gone
      exact consistent.joined j (remains j inRoom).1 (Option.map_eq_none_iff.mp gone)
    · intro j m there
      rcases deliver_cases there with ⟨outside, here⟩ | ⟨inRoom, -, m₀, here, rfl⟩
      · have sound := consistent.links j m here
        exact ⟨sound.carried, fun inRoom => absurd (outside inRoom) (remains j inRoom).2, sound.moved⟩
      · have sound := consistent.links j m₀ here
        exact ⟨sound.carried.address,
          fun _ => (sound.told (remains j inRoom).1).leave inside consistent.distinct, sound.moved⟩

theorem Consistent.sendRoster (consistent : Consistent s) (here : s.links k = some l) :
    Consistent ((s.setLink k { l with latest := fun _ => none }).deliver (s.room.sendRoster k)
      pressure) := by
  have sound := consistent.links k l here
  unfold PresenceRoom.sendRoster
  cases found : s.room.participants.get k with
  | none =>
      have outside : ¬ InRoom s.room k := by
        rintro ⟨q, inside, named⟩
        exact Keyed.get_eq_none.mp found q inside named
      exact consistent.setLink ⟨sound.carried, fun inRoom => absurd inRoom outside,
        fun _ moved => absurd rfl moved⟩
  | some p =>
      have told : Told s.room k ({ l with latest := fun _ => none }.address
          (.presenceRoster (s.room.participants.entries.map PresenceParticipant.entry))
          (pressure k)) := told_roster rfl rfl
      have addressed : (s.setLink k { l with latest := fun _ => none }).deliver
          [(k, .presenceRoster (s.room.participants.entries.map PresenceParticipant.entry))] pressure =
            s.setLink k ({ l with latest := fun _ => none }.address
              (.presenceRoster (s.room.participants.entries.map PresenceParticipant.entry))
              (pressure k)) := by
        unfold deliver PresenceViews.setLink deliverTo
        simp only [List.foldl_cons, List.foldl_nil, Function.update_self, Function.update_idem,
          Option.map_some]
      rw [addressed]
      have carried : ({ l with latest := fun _ => none } : PresenceLink).Carried := sound.carried
      exact consistent.setLink ⟨carried.address, fun _ => told, fun _ moved => absurd rfl moved⟩

theorem Consistent.handleUpdate (consistent : Consistent s) (inside : p ∈ s.room.participants)
    (position : PresencePosition) :
    Consistent ((s.noteMove p.replicaId position).deliver (s.room.broadcastExcept p.sessionId
      (.presenceUpdate p.replicaId position.anchor position.focus position.collapsed)) pressure) where
  fresh := consistent.fresh
  distinct := consistent.distinct
  joined j inRoom gone := by
    have inRoom : InRoom s.room j := inRoom
    by_cases mover : j = p.sessionId
    · rw [deliver_outside fun _ => mover] at gone
      exact consistent.joined j inRoom (Option.map_eq_none_iff.mp gone)
    · rw [deliver_broadcast inRoom mover] at gone
      have before := Option.map_eq_none_iff.mp gone
      exact consistent.joined j inRoom (Option.map_eq_none_iff.mp before)
  links j m there := by
    have known := consistent.fresh p inside
    have grown : ∀ {latest : Nat → Option PresencePosition},
        (∀ r, latest r ≠ none → r ∈ s.replicaIds) →
          ∀ r, Function.update latest p.replicaId (some position) r ≠ none → r ∈ s.replicaIds := by
      intro latest moved r moves
      by_cases mover : r = p.replicaId
      · rw [mover]
        exact known
      · rw [Function.update_of_ne mover] at moves
        exact moved r moves
    rcases deliver_cases there with ⟨outside, here⟩ | ⟨inRoom, -, m₁, here, rfl⟩
    · obtain ⟨m₀, before, rfl⟩ := Option.map_eq_some_iff.mp here
      have sound := consistent.links j m₀ before
      exact ⟨sound.carried, fun inRoom => (sound.told inRoom).noteMove inside (outside inRoom).symm
        consistent.distinct position, grown sound.moved⟩
    · obtain ⟨m₀, before, rfl⟩ := Option.map_eq_some_iff.mp here
      have sound := consistent.links j m₀ before
      have carried : ({ m₀ with latest := Function.update m₀.latest p.replicaId (some position) } :
        PresenceLink).Carried := sound.carried
      exact ⟨carried.address, fun _ => (sound.told inRoom).update position, grown sound.moved⟩

/-- One event keeps the invariant. -/
theorem consistent_step {s' : PresenceViews} (e : PresenceEvent) (consistent : Consistent s)
    (moved : s.step e = .ok s') : Consistent s' := by
  cases e with
  | join p earlier pressure =>
      simp only [step] at moved
      split_ifs at moved with taken joined
      obtain rfl := Except.ok.inj moved
      exact consistent.join taken (Option.not_isSome_iff_eq_none.mp joined)
  | sendRoster k pressure =>
      obtain ⟨l, here, went⟩ := Throwing.ok_of_bind moved
      obtain rfl := Except.ok.inj went
      exact consistent.sendRoster (link_ok.mp here)
  | handleUpdate k position rateLimited pressure =>
      simp only [step, PresenceRoom.handleUpdate] at moved
      cases found : s.room.participants.get k with
      | none =>
          rw [found] at moved
          obtain rfl := Except.ok.inj moved
          exact consistent
      | some p =>
          obtain ⟨inside, rfl⟩ := Keyed.get_eq_some.mp found
          simp only [found] at moved
          split_ifs at moved with dropped
          · obtain rfl := Except.ok.inj moved
            exact consistent
          · obtain rfl := Except.ok.inj moved
            exact consistent.handleUpdate inside position
  | leave k reason pressure =>
      obtain rfl := Except.ok.inj moved
      exact consistent.leave
  | enqueueOther k frame =>
      obtain ⟨l, here, went⟩ := Throwing.ok_of_bind moved
      split_ifs at went with other
      obtain rfl := Except.ok.inj went
      have sound := consistent.links k l (link_ok.mp here)
      refine consistent.setLink (sound.carry rfl rfl (sound.carried.transmit ?_ fun _ => ?_))
      · exact fun alive => ConnectionSendQueues.enqueue_closed.symm.trans alive
      · exact ConnectionSendQueues.enqueue_other other
  | sendSettled k succeeded =>
      obtain ⟨l, here, went⟩ := Throwing.ok_of_bind moved
      split_ifs at went with writes
      obtain rfl := Except.ok.inj went
      have sound := consistent.links k l (link_ok.mp here)
      refine consistent.setLink (sound.carry rfl rfl ?_)
      cases succeeded with
      | true =>
          refine sound.carried.transmit (fun alive => ?_) fun _ => ConnectionSendQueues.drain_presence
          exact ConnectionSendQueues.drain_closed.symm.trans alive
      | false => exact sound.carried.transmit nofun nofun
  | received k =>
      obtain ⟨l, here, went⟩ := Throwing.ok_of_bind moved
      obtain rfl := Except.ok.inj went
      have sound := consistent.links k l (link_ok.mp here)
      have log : l.receive.log = l.log ∧ l.receive.latest = l.latest := by
        unfold PresenceLink.receive
        cases l.wire with
        | nil => exact ⟨rfl, rfl⟩
        | cons msg wire => exact ⟨rfl, rfl⟩
      exact consistent.setLink (sound.carry log.1 log.2 sound.carried.receive)
  | close k =>
      obtain ⟨l, here, went⟩ := Throwing.ok_of_bind moved
      obtain rfl := Except.ok.inj went
      have sound := consistent.links k l (link_ok.mp here)
      exact consistent.setLink (sound.carry rfl rfl nofun)

/-- A drained participant that was sent its roster sees the other replicas of the room, and not
itself. -/
def SeesTheOthers (s : PresenceViews) : Prop :=
  ∀ k l, s.links k = some l → InRoom s.room k → l.Drained → l.log.Rostered → ∀ replicaId,
    (l.overlay.get replicaId).isSome ↔
      ∃ p ∈ s.room.participants, p.sessionId ≠ k ∧ p.replicaId = replicaId

/-- The participant with this number, as its session and as its replica. -/
def numbered (k : Nat) : PresenceParticipant := ⟨k, k, "user", "User", .EDITOR⟩

/-- A participant alone in its room. -/
def alone : List PresenceEvent :=
  [.join (numbered 1) .empty fun _ => false, .sendRoster 1 fun _ => false, .received 1]

/-- The join of a third participant drives out that of the second. -/
def joinShed : List PresenceEvent :=
  alone ++ [.join (numbered 2) .empty fun _ => false, .join (numbered 3) .empty fun k => k = 1,
    .sendSettled 1 true, .sendSettled 1 true, .received 1]

/-- The first participant moves after the second has joined and before its roster is sent. -/
def movedBeforeRoster : List PresenceEvent :=
  alone ++ [.join (numbered 2) .empty fun _ => false,
    .handleUpdate 1 ⟨none, none, true⟩ false fun _ => false, .sendRoster 2 fun _ => false,
    .sendSettled 2 true, .sendSettled 2 true, .received 2, .received 2]

/-- The connection is drained after its roster, and the entries for these replicas are as told. -/
def showsAtEnd (k : Nat) (entries : List (Nat × Option Bool)) (s : PresenceViews) : Bool :=
  match s.links k with
  | none => false
  | some l => decide l.Drained && decide l.log.Rostered &&
      entries.all fun entry => (l.overlay.get entry.1).map ParticipantState.hasPosition = entry.2

end PresenceViews

end ConfluenceEditor
