/-
Membership of the presence room and the liveness of sessions.

A session that has not sent a PING for `PRESENCE_STALE_MS` is removed from its room by a timer, and
its connection stays open. A later PING clears the flag and arms the timer again, but it does not put
the session back. So membership follows liveness exactly in the runs where no PING comes from a
session that the timer has removed (`membership_follows_liveness`).
-/

import ConfluenceEditor.Collaboration.PresenceViews

namespace ConfluenceEditor

def PRESENCE_STALE_MS : Nat := 8000

/-- The liveness of a session; `left` records that it has sent LEAVE. -/
structure LiveSession where
  connected : Bool
  left : Bool
  lastPingAt : Nat
  presenceStale : Bool
  /-- When the timer is due, if it is armed. -/
  staleTimer : Option Nat
  deriving DecidableEq, Repr

namespace LiveSession

def armPresenceStaleTimer (x : LiveSession) (nowMs : Nat) : LiveSession :=
  { x with staleTimer := some (nowMs + PRESENCE_STALE_MS) }

def disarmPresenceStaleTimer (x : LiveSession) : LiveSession := { x with staleTimer := none }

/-- The timer has fired. -/
def markPresenceStale (x : LiveSession) : LiveSession :=
  { x with presenceStale := true, staleTimer := none }

def onPingReceived (x : LiveSession) (nowMs : Nat) : LiveSession :=
  { x with lastPingAt := nowMs, presenceStale := false }.armPresenceStaleTimer nowMs

def joined (nowMs : Nat) : LiveSession :=
  (⟨true, false, nowMs, false, none⟩ : LiveSession).armPresenceStaleTimer nowMs

end LiveSession

structure PresenceLiveness where
  nowMs : Nat
  views : PresenceViews
  sessions : Nat → Option LiveSession

inductive LivenessEvent where
  | tick (ms : Nat)
  | join (p : PresenceParticipant) (earlier : PresenceOverlay) (pressure : Nat → Bool)
  | ping (k : Nat)
  | leave (k : Nat) (pressure : Nat → Bool)
  /-- The timer fires, when it is due or later. -/
  | staleTimer (k : Nat) (pressure : Nat → Bool)
  | close (k : Nat) (pressure : Nat → Bool)
  /-- A roster, an update, or an event of the queues. -/
  | other (e : PresenceEvent)

/-- The event neither adds nor removes a participant. -/
def PresenceEvent.keepsRoom : PresenceEvent → Bool
  | .join .. | .leave .. => false
  | _ => true

namespace PresenceLiveness

open Run

def start : PresenceLiveness := ⟨0, .start, fun _ => none⟩

def session (s : PresenceLiveness) (k : Nat) : Except String LiveSession :=
  match s.sessions k with
  | some x => .ok x
  | none => .error "no such session"

def setSession (s : PresenceLiveness) (k : Nat) (x : LiveSession) : PresenceLiveness :=
  { s with sessions := Function.update s.sessions k (some x) }

/-- A frame of the session comes as long as its connection is open. -/
def connectedSession (s : PresenceLiveness) (k : Nat) : Except String LiveSession := do
  let x ← s.session k
  if x.connected then .ok x else .error "the connection is closed"

def step (s : PresenceLiveness) : LivenessEvent → Except String PresenceLiveness
  | .tick ms => .ok { s with nowMs := s.nowMs + ms }
  | .join p earlier pressure => do
      let views ← s.views.step (.join p earlier pressure)
      .ok ({ s with views }.setSession p.sessionId (.joined s.nowMs))
  | .ping k => do
      let x ← s.connectedSession k
      .ok (s.setSession k (x.onPingReceived s.nowMs))
  | .leave k pressure => do
      let x ← s.connectedSession k
      let views ← s.views.step (.leave k .CLEAN pressure)
      .ok ({ s with views }.setSession k { x with left := true })
  | .staleTimer k pressure => do
      let x ← s.session k
      match x.staleTimer with
      | none => .error "the timer is not armed"
      | some due =>
          if due ≤ s.nowMs then do
            let views ← s.views.step (.leave k .STALE pressure)
            .ok ({ s with views }.setSession k x.markPresenceStale)
          else .error "the timer is not due"
  | .close k pressure => do
      let x ← s.connectedSession k
      let closed ← s.views.step (.close k)
      let views ← closed.step (.leave k .STALE pressure)
      .ok ({ s with views }.setSession k { x.disarmPresenceStaleTimer with connected := false })
  | .other e => do
      if e.keepsRoom then
        let views ← s.views.step e
        .ok { s with views }
      else .error "a participant comes or goes"

/-! ### The property -/

/-- The session is in the room, and every other participant that was sent its roster has been told
so. -/
def Visible (s : PresenceLiveness) (k : Nat) : Prop :=
  ∃ p ∈ s.views.room.participants, p.sessionId = k ∧
    ∀ j l, s.views.links j = some l → PresenceViews.InRoom s.views.room j → j ≠ k →
      l.log.Rostered → l.log.Lists p.replicaId

/-- A session that is connected, has not left and has sent a PING lately is visible. -/
def MembershipLive (s : PresenceLiveness) : Prop :=
  ∀ k x, s.sessions k = some x → x.connected = true → x.left = false →
    s.nowMs < x.lastPingAt + PRESENCE_STALE_MS → s.Visible k

/-- A PING does not come from a session that the stale timer has removed. -/
def PingsInTime (s : PresenceLiveness) : LivenessEvent → Prop
  | .ping k => ∀ x ∈ s.sessions k, x.left = false → x.presenceStale = false
  | _ => True

/-! ### The invariant -/

/-- What holds in every run. -/
structure Timed (s : PresenceLiveness) : Prop where
  consistent : s.views.Consistent
  fresh : ∀ k, PresenceViews.InRoom s.views.room k →
    ∃ x, s.sessions k = some x ∧ x.presenceStale = false
  due : ∀ k x, s.sessions k = some x → ∀ due ∈ x.staleTimer, x.lastPingAt + PRESENCE_STALE_MS ≤ due
  stale : ∀ k x, s.sessions k = some x → x.presenceStale = true →
    x.lastPingAt + PRESENCE_STALE_MS ≤ s.nowMs

/-- What holds in the runs without a late PING. -/
def Present (s : PresenceLiveness) : Prop :=
  ∀ k x, s.sessions k = some x → x.connected = true → x.left = false → x.presenceStale = false →
    PresenceViews.InRoom s.views.room k

theorem timed_start : Timed start where
  consistent := PresenceViews.consistent_start
  fresh := by
    rintro k ⟨p, inside, -⟩
    exact absurd inside Keyed.not_mem_empty
  due := nofun
  stale := nofun

variable {s s' : PresenceLiveness} {k : Nat} {x : LiveSession}

theorem Timed.membershipLive (timed : Timed s) (present : Present s) : MembershipLive s := by
  intro k x here connected stays lately
  have lives : x.presenceStale = false := by
    by_contra stale
    have late := timed.stale k x here (Bool.not_eq_false _ ▸ stale)
    exact absurd lately (Nat.not_lt.mpr late)
  obtain ⟨p, inside, named⟩ := present k x here connected stays lives
  refine ⟨p, inside, named, fun j l there inRoom _ rostered => ?_⟩
  exact ((timed.consistent.links j l there).told inRoom).lists rostered p.replicaId |>.mpr
    ⟨p, inside, rfl⟩

theorem session_ok : s.session k = .ok x ↔ s.sessions k = some x := by
  unfold session
  cases s.sessions k with
  | none => simp
  | some other => simp

theorem connectedSession_ok (found : s.connectedSession k = .ok x) :
    s.sessions k = some x ∧ x.connected = true := by
  obtain ⟨y, here, went⟩ := Throwing.ok_of_bind found
  split_ifs at went with connected
  obtain rfl := Except.ok.inj went
  exact ⟨session_ok.mp here, connected⟩

/-- A stale timer that fires was armed and is due, and removes its session. -/
theorem staleTimer_ok {pressure : Nat → Bool} (moved : s.step (.staleTimer k pressure) = .ok s') :
    ∃ x due views, s.sessions k = some x ∧ x.staleTimer = some due ∧ due ≤ s.nowMs ∧
      s.views.step (.leave k .STALE pressure) = .ok views ∧
      s' = setSession { s with views } k x.markPresenceStale := by
  obtain ⟨x, found, went⟩ := Throwing.ok_of_bind moved
  cases armed : x.staleTimer with
  | none =>
      rw [armed] at went
      cases went
  | some due =>
      simp only [armed] at went
      split_ifs at went with late
      obtain ⟨views, left, went⟩ := Throwing.ok_of_bind went
      exact ⟨x, due, views, session_ok.mp found, armed, late, left, (Except.ok.inj went).symm⟩

theorem setSession_sessions {j : Nat} {y : LiveSession}
    (there : (s.setSession k x).sessions j = some y) :
    j = k ∧ y = x ∨ j ≠ k ∧ s.sessions j = some y := by
  change Function.update s.sessions k (some x) j = some y at there
  by_cases same : j = k
  · rw [same, Function.update_self] at there
    exact Or.inl ⟨same, (Option.some.inj there).symm⟩
  · rw [Function.update_of_ne same] at there
    exact Or.inr ⟨same, there⟩

/-! ### Who is in the room after a step of the views -/

theorem inRoom_join {v v' : PresenceViews} {p : PresenceParticipant} {earlier : PresenceOverlay}
    {pressure : Nat → Bool} (moved : v.step (.join p earlier pressure) = .ok v') (j : Nat) :
    PresenceViews.InRoom v'.room j ↔ j = p.sessionId ∨ PresenceViews.InRoom v.room j := by
  simp only [PresenceViews.step] at moved
  split_ifs at moved
  obtain rfl := Except.ok.inj moved
  constructor
  · rintro ⟨q, inside, rfl⟩
    rcases PresenceRoom.mem_join.mp inside with rfl | ⟨before, -⟩
    · exact Or.inl rfl
    · exact Or.inr ⟨q, before, rfl⟩
  · intro there
    by_cases same : j = p.sessionId
    · exact ⟨p, PresenceRoom.mem_join.mpr (Or.inl rfl), same.symm⟩
    · obtain ⟨q, inside, named⟩ := there.resolve_left same
      exact ⟨q, PresenceRoom.mem_join.mpr (Or.inr ⟨inside, fun p_too => same (named.symm.trans p_too)⟩),
        named⟩

theorem inRoom_leave {v v' : PresenceViews} {reason : PresenceLeaveReason} {pressure : Nat → Bool}
    (moved : v.step (.leave k reason pressure) = .ok v') (j : Nat) :
    PresenceViews.InRoom v'.room j ↔ PresenceViews.InRoom v.room j ∧ j ≠ k := by
  obtain rfl := Except.ok.inj moved
  constructor
  · rintro ⟨q, left, rfl⟩
    obtain ⟨inside, other⟩ := PresenceRoom.mem_leave.mp left
    exact ⟨⟨q, inside, rfl⟩, other⟩
  · rintro ⟨⟨q, inside, rfl⟩, other⟩
    exact ⟨q, PresenceRoom.mem_leave.mpr ⟨inside, other⟩, rfl⟩

theorem room_other {v v' : PresenceViews} {e : PresenceEvent} (keeps : e.keepsRoom = true)
    (moved : v.step e = .ok v') : v'.room = v.room := by
  cases e with
  | join | leave => cases keeps
  | handleUpdate k position rateLimited pressure =>
      simp only [PresenceViews.step] at moved
      split at moved
      · obtain rfl := Except.ok.inj moved
        rfl
      · split_ifs at moved
        · obtain rfl := Except.ok.inj moved
          rfl
        · obtain rfl := Except.ok.inj moved
          rfl
  | sendRoster | received | close =>
      obtain ⟨l, -, went⟩ := Throwing.ok_of_bind moved
      obtain rfl := Except.ok.inj went
      rfl
  | enqueueOther | sendSettled =>
      obtain ⟨l, -, went⟩ := Throwing.ok_of_bind moved
      split_ifs at went
      obtain rfl := Except.ok.inj went
      rfl

/-! ### The steps -/

variable {views : PresenceViews}

/-- One session and the room change together. -/
theorem Timed.setSession (timed : Timed s) (consistent : views.Consistent)
    (others : ∀ j, PresenceViews.InRoom views.room j → j ≠ k → PresenceViews.InRoom s.views.room j)
    (own : PresenceViews.InRoom views.room k → x.presenceStale = false)
    (due : ∀ due ∈ x.staleTimer, x.lastPingAt + PRESENCE_STALE_MS ≤ due)
    (stale : x.presenceStale = true → x.lastPingAt + PRESENCE_STALE_MS ≤ s.nowMs) :
    Timed ({ s with views }.setSession k x) where
  consistent := consistent
  fresh j inRoom := by
    show ∃ y, Function.update s.sessions k (some x) j = some y ∧ _
    by_cases same : j = k
    · subst same
      rw [Function.update_self]
      exact ⟨x, rfl, own inRoom⟩
    · rw [Function.update_of_ne same]
      exact timed.fresh j (others j inRoom same)
  due j y there := by
    rcases setSession_sessions there with ⟨rfl, rfl⟩ | ⟨-, before⟩
    · exact due
    · exact timed.due j y before
  stale j y there := by
    rcases setSession_sessions there with ⟨rfl, rfl⟩ | ⟨-, before⟩
    · exact stale
    · exact timed.stale j y before

theorem Present.setSession (present : Present s)
    (others : ∀ j, PresenceViews.InRoom s.views.room j → j ≠ k → PresenceViews.InRoom views.room j)
    (own : x.connected = true → x.left = false → x.presenceStale = false →
      PresenceViews.InRoom views.room k) :
    Present ({ s with views }.setSession k x) := by
  intro j y there connected stays fresh
  rcases setSession_sessions there with ⟨rfl, rfl⟩ | ⟨other, before⟩
  · exact own connected stays fresh
  · exact others j (present j y before connected stays fresh) other

theorem timed_step (e : LivenessEvent) (timed : Timed s) (moved : s.step e = .ok s') : Timed s' := by
  cases e with
  | tick ms =>
      obtain rfl := Except.ok.inj moved
      exact ⟨timed.consistent, timed.fresh, timed.due, fun k x here stale =>
        Nat.le_add_right_of_le (timed.stale k x here stale)⟩
  | join p earlier pressure =>
      obtain ⟨views, joined, went⟩ := Throwing.ok_of_bind moved
      obtain rfl := Except.ok.inj went
      have consistent := PresenceViews.consistent_step _ timed.consistent joined
      refine timed.setSession consistent (fun j inRoom other => ?_) (fun _ => rfl) ?_ nofun
      · exact ((inRoom_join joined j).mp inRoom).resolve_left other
      · rintro due ⟨⟩
        exact Nat.le_refl _
  | ping k =>
      obtain ⟨x, here, went⟩ := Throwing.ok_of_bind moved
      obtain rfl := Except.ok.inj went
      refine timed.setSession timed.consistent (fun _ inRoom _ => inRoom) (fun _ => rfl) ?_ nofun
      rintro due ⟨⟩
      exact Nat.le_refl _
  | leave k pressure =>
      obtain ⟨x, found, went⟩ := Throwing.ok_of_bind moved
      obtain ⟨views, left, went⟩ := Throwing.ok_of_bind went
      obtain rfl := Except.ok.inj went
      have here := (connectedSession_ok found).1
      have gone := inRoom_leave left
      exact timed.setSession (PresenceViews.consistent_step _ timed.consistent left)
        (fun j inRoom _ => ((gone j).mp inRoom).1) (fun inRoom => absurd rfl ((gone k).mp inRoom).2)
        (timed.due k x here) (timed.stale k x here)
  | staleTimer k pressure =>
      obtain ⟨x, due, views, here, armed, late, left, rfl⟩ := staleTimer_ok moved
      have gone := inRoom_leave left
      exact timed.setSession (PresenceViews.consistent_step _ timed.consistent left)
        (fun j inRoom _ => ((gone j).mp inRoom).1) (fun inRoom => absurd rfl ((gone k).mp inRoom).2)
        nofun fun _ => Nat.le_trans (timed.due k x here due armed) late
  | close k pressure =>
      obtain ⟨x, found, went⟩ := Throwing.ok_of_bind moved
      obtain ⟨closed, closes, went⟩ := Throwing.ok_of_bind went
      obtain ⟨views, left, went⟩ := Throwing.ok_of_bind went
      obtain rfl := Except.ok.inj went
      have here := (connectedSession_ok found).1
      have gone := inRoom_leave left
      have same := room_other rfl closes
      have consistent := PresenceViews.consistent_step _ timed.consistent closes
      exact timed.setSession (PresenceViews.consistent_step _ consistent left)
        (fun j inRoom _ => same ▸ ((gone j).mp inRoom).1)
        (fun inRoom => absurd rfl ((gone k).mp inRoom).2) nofun (timed.stale k x here)
  | other e =>
      simp only [step] at moved
      split_ifs at moved with keeps
      obtain ⟨views, went, same⟩ := Throwing.ok_of_bind moved
      obtain rfl := Except.ok.inj same
      have consistent := PresenceViews.consistent_step _ timed.consistent went
      refine ⟨consistent, fun j inRoom => ?_, timed.due, timed.stale⟩
      exact timed.fresh j (room_other keeps went ▸ inRoom)

/-- A step without a late PING leaves the sessions that are alive in the room. -/
theorem present_step (e : LivenessEvent) (present : Present s) (inTime : s.PingsInTime e)
    (moved : s.step e = .ok s') : Present s' := by
  cases e with
  | tick ms =>
      obtain rfl := Except.ok.inj moved
      exact present
  | join p earlier pressure =>
      obtain ⟨views, joined, went⟩ := Throwing.ok_of_bind moved
      obtain rfl := Except.ok.inj went
      have room := inRoom_join joined
      exact present.setSession (fun j inRoom _ => (room j).mpr (Or.inr inRoom))
        fun _ _ _ => (room _).mpr (Or.inl rfl)
  | ping k =>
      obtain ⟨x, found, went⟩ := Throwing.ok_of_bind moved
      obtain rfl := Except.ok.inj went
      obtain ⟨here, -⟩ := connectedSession_ok found
      refine present.setSession (fun _ inRoom _ => inRoom) fun connected stays _ => ?_
      exact present k x here connected stays (inTime x here stays)
  | leave k pressure =>
      obtain ⟨x, found, went⟩ := Throwing.ok_of_bind moved
      obtain ⟨views, left, went⟩ := Throwing.ok_of_bind went
      obtain rfl := Except.ok.inj went
      exact present.setSession (fun j inRoom other => (inRoom_leave left j).mpr ⟨inRoom, other⟩)
        nofun
  | staleTimer k pressure =>
      obtain ⟨x, due, views, -, -, -, left, rfl⟩ := staleTimer_ok moved
      exact present.setSession (fun j inRoom other => (inRoom_leave left j).mpr ⟨inRoom, other⟩)
        nofun
  | close k pressure =>
      obtain ⟨x, found, went⟩ := Throwing.ok_of_bind moved
      obtain ⟨closed, closes, went⟩ := Throwing.ok_of_bind went
      obtain ⟨views, left, went⟩ := Throwing.ok_of_bind went
      obtain rfl := Except.ok.inj went
      have same := room_other rfl closes
      exact present.setSession
        (fun j inRoom other => (inRoom_leave left j).mpr ⟨same.symm ▸ inRoom, other⟩)
        nofun
  | other e =>
      simp only [step] at moved
      split_ifs at moved with keeps
      obtain ⟨views, went, same⟩ := Throwing.ok_of_bind moved
      obtain rfl := Except.ok.inj same
      intro j y here connected stays fresh
      show PresenceViews.InRoom views.room j
      rw [room_other keeps went]
      exact present j y here connected stays fresh

/-- A PING of a session that was removed leaves it removed. -/
theorem inTime_of_live (e : LivenessEvent) (timed : Timed s) (moved : s.step e = .ok s')
    (live : MembershipLive s') : s.PingsInTime e := by
  cases e with
  | ping k =>
      intro x here stays
      by_contra stale
      obtain ⟨y, found, went⟩ := Throwing.ok_of_bind moved
      obtain rfl := Except.ok.inj went
      obtain ⟨here', connected⟩ := connectedSession_ok found
      obtain rfl : x = y := Option.some.inj (here.symm.trans here')
      have recent : s.nowMs < s.nowMs + PRESENCE_STALE_MS := Nat.lt_add_of_pos_right (by decide)
      obtain ⟨p, inside, named, -⟩ := live k (x.onPingReceived s.nowMs)
        (Function.update_self ..) connected stays recent
      obtain ⟨z, there, fresh⟩ := timed.fresh k ⟨p, inside, named⟩
      obtain rfl : x = z := Option.some.inj (here.symm.trans there)
      exact stale fresh
  | tick | join | leave | staleTimer | close | other => exact trivial

/-- Membership of the room follows liveness in exactly the runs in which no PING comes from a session
that the stale timer has removed. -/
theorem membership_follows_liveness (events : List LivenessEvent) :
    Always step MembershipLive start events ↔ Each step PingsInTime start events := by
  constructor
  · exact each_of_always (fun _ e _ timed moved => timed_step e timed moved)
      (fun _ e _ timed moved live => inTime_of_live e timed moved live) timed_start
  · intro inTime
    have both : Always step (fun s => Timed s ∧ Present s) start events :=
      always_of_each (fun _ e _ holds met moved =>
        ⟨timed_step e holds.1 moved, present_step e holds.2 met moved⟩) ⟨timed_start, nofun⟩ inTime
    exact both.imp fun _ holds => holds.1.membershipLive holds.2

/-- The timer fires after 8 seconds, and then a PING comes. -/
def latePing : List LivenessEvent :=
  [.join (PresenceViews.numbered 1) .empty fun _ => false, .tick 8000, .staleTimer 1 fun _ => false,
    .ping 1]

/-- A session that was stale stays invisible, however often it sends a PING. -/
theorem invisible_after_stale : ¬ ∀ events, Always step MembershipLive start events := by
  intro always
  obtain ⟨s, ran, test⟩ := exists_of_ends (run step start latePing)
    (fun s => s.sessions 1 = some ⟨true, false, 8000, false, some 16000⟩ && s.nowMs = 8000 &&
      s.views.room.participants.entries = []) (by decide)
  obtain ⟨test, room⟩ := Bool.and_eq_true_iff.mp test
  obtain ⟨here, now⟩ := Bool.and_eq_true_iff.mp test
  have lately : s.nowMs < 8000 + PRESENCE_STALE_MS := by
    rw [of_decide_eq_true now]
    decide
  obtain ⟨p, inside, -⟩ := (always latePing).last ran 1 _ (of_decide_eq_true here) rfl rfl lately
  have none_left : s.views.room.participants.entries = [] := of_decide_eq_true room
  rw [Keyed.mem_def, none_left] at inside
  cases inside

end PresenceLiveness

end ConfluenceEditor
