/-
How a revoked role takes effect.

A change of a role is committed to the database and then pushed, which deletes the cached decisions of
the user's sessions. A lookup that has read the earlier role before the commit may still be in flight
then; its answer is cached after the push, with an expiry counted from the start of the lookup, and
later operations are accepted on it. Where no such lookup is in flight at the push, no operation whose
check begins later is accepted, and without a push none whose check begins more than
`AUTH_DECISION_TTL_MS` after the commit (`revocation_effective`).
-/

import ConfluenceEditor.Library.Run
import ConfluenceEditor.Library.Throwing
import ConfluenceEditor.Server.Gateway
import Mathlib.Data.Fintype.Defs

namespace ConfluenceEditor

/-- When a user's role became a non-writing one, and when that was last pushed. -/
structure Revocation where
  committedAt : Nat
  pushedAt : Option Nat
  deriving DecidableEq, Repr

/-- From when on no decision for the user lasts that was made on a role from before the revocation. -/
def Revocation.fence (x : Revocation) : Nat :=
  x.pushedAt.getD (x.committedAt + Gateway.AUTH_DECISION_TTL_MS)

/-- The coordinator of a document whose roles are in the database. -/
structure Authorizing where
  gateway : Gateway
  nowMs : Nat
  /-- The committed role of each user. -/
  roles : Nat → Option DocumentRole
  connected : List Nat
  /-- The sessions that have been connected; none is connected twice. -/
  known : List Nat
  /-- What the lookup for a frame has read. -/
  answers : OpsFrame → Option (Option DocumentRole)
  /-- The changes that are committed and not pushed. -/
  unpushed : List (Nat × Option DocumentRole)
  revoked : Nat → Option Revocation
  /-- The frames whose check began after the revocation of their user's role was pushed, or more than
  the lifetime of a decision after it was committed. -/
  late : List OpsFrame

inductive AuthorizingEvent where
  | tick (ms : Nat)
  | connect (k : Nat)
  | disconnect (k : Nat)
  | arrive (k : Nat) (ops : List Operation) (circuitBreakerTripped : Bool)
  /-- The lookup reads the committed role; its answer comes; it fails. -/
  | read (frame : OpsFrame)
  | answer (frame : OpsFrame)
  | lookupFailed (frame : OpsFrame)
  | resume (rateLimited : Bool)
  | commit (user : Nat) (role : Option DocumentRole)
  | push (i : Nat)
  deriving DecidableEq, Repr

/-- The roles that may submit operations. -/
def Writing (role : Option DocumentRole) : Prop := role = some .editor ∨ role = some .owner

instance (role : Option DocumentRole) : Decidable (Writing role) :=
  inferInstanceAs (Decidable (_ ∨ _))

/-! ### What a step of the gateway does to the decisions -/

namespace Gateway

/-- `setSessionRoleLive` for each of the sessions. -/
def pushRole (g : Gateway) (sessions : List Nat) (role : SessionRole) : Gateway :=
  sessions.foldl (fun g k => { g.setRole k role with
    authDecisionCache := Function.update g.authDecisionCache k none }) g

variable {g g' : Gateway} {k nowMs : Nat} {frame : OpsFrame} {ops : List Operation}

/-- The lookups, the cache and the decided frames after the arrival of a frame. -/
inductive Checked (g g' : Gateway) (frame : OpsFrame) (nowMs : Nat) : Prop where
  | ignored (lookups : g'.lookups = g.lookups) (microtasks : g'.microtasks = g.microtasks)
  | cached (d : AuthDecision) (there : g.authDecisionCache frame.session = some d)
      (fresh : nowMs < d.expiresAt) (lookups : g'.lookups = g.lookups)
      (microtasks : g'.microtasks = g.microtasks ++ [(frame, d.allowed)])
  | asked (lookups : g'.lookups = g.lookups ++ [(frame, nowMs)])
      (microtasks : g'.microtasks = g.microtasks)

/-- The one lookup that may be new is that for the frame. -/
theorem Checked.lookup_cases (checked : Checked g g' frame nowMs) {l : OpsFrame × Nat}
    (member : l ∈ g'.lookups) : l ∈ g.lookups ∨ l = (frame, nowMs) := by
  cases checked with
  | ignored lookups => exact Or.inl (lookups ▸ member)
  | cached d there fresh lookups => exact Or.inl (lookups ▸ member)
  | asked lookups =>
      rw [lookups] at member
      exact (List.mem_append.mp member).imp id List.mem_singleton.mp

/-- The one task that may be new has a decision that lasts. -/
theorem Checked.task_cases (checked : Checked g g' frame nowMs) {task : OpsFrame × Bool}
    (member : task ∈ g'.microtasks) : task ∈ g.microtasks ∨ task.1 = frame ∧
      ∃ d, g.authDecisionCache frame.session = some d ∧ nowMs < d.expiresAt ∧ task.2 = d.allowed := by
  cases checked with
  | ignored _ microtasks => exact Or.inl (microtasks ▸ member)
  | asked _ microtasks => exact Or.inl (microtasks ▸ member)
  | cached d there fresh _ microtasks =>
      rw [microtasks] at member
      rcases List.mem_append.mp member with before | new
      · exact Or.inl before
      · rw [List.mem_singleton.mp new]
        exact Or.inr ⟨rfl, d, there, fresh, rfl⟩

theorem authorizeSession_spec (lookup : g.lookupRole = true) (frame : OpsFrame) (nowMs : Nat) :
    (g.authorizeSession frame nowMs).lookupRole = true ∧
      (g.authorizeSession frame nowMs).arrived = g.arrived ∧
      (g.authorizeSession frame nowMs).handed = g.handed ∧
      (g.authorizeSession frame nowMs).authDecisionCache = g.authDecisionCache ∧
        Checked g (g.authorizeSession frame nowMs) frame nowMs := by
  have missed : g.miss frame nowMs = { g with lookups := g.lookups ++ [(frame, nowMs)] } :=
    if_pos lookup
  cases there : g.authDecisionCache frame.session with
  | none =>
      have asks : g.authorizeSession frame nowMs = g.miss frame nowMs := by
        unfold authorizeSession
        rw [there]
      rw [asks, missed]
      exact ⟨lookup, rfl, rfl, rfl, .asked rfl rfl⟩
  | some d =>
      by_cases fresh : d.expiresAt > nowMs
      · have answers : g.authorizeSession frame nowMs = g.decided frame d.allowed := by
          unfold authorizeSession
          rw [there]
          exact if_pos fresh
        rw [answers]
        exact ⟨lookup, rfl, rfl, rfl, .cached d there fresh rfl rfl⟩
      · have asks : g.authorizeSession frame nowMs = g.miss frame nowMs := by
          unfold authorizeSession
          rw [there]
          exact if_neg fresh
        rw [asks, missed]
        exact ⟨lookup, rfl, rfl, rfl, .asked rfl rfl⟩

theorem arrive_spec {tripped : Bool} (lookup : g.lookupRole = true)
    (moved : g.step (.arrive k ops nowMs tripped) = .ok g') :
    g'.lookupRole = true ∧ g'.arrived.length = g.arrived.length + 1 ∧ g'.handed = g.handed ∧
      g'.authDecisionCache = g.authDecisionCache ∧
        Checked g g' ⟨g.arrived.length, k, ops⟩ nowMs := by
  simp only [step] at moved
  split_ifs at moved with ignored
  · obtain rfl := Except.ok.inj moved
    exact ⟨lookup, List.length_append, rfl, rfl, .ignored rfl rfl⟩
  · obtain rfl := Except.ok.inj moved
    let frame : OpsFrame := ⟨g.arrived.length, k, ops⟩
    let before : Gateway := { g with
      arrived := g.arrived ++ [frame]
      waiting := g.waiting ++ [frame] }
    have waits : before.lookupRole = true := lookup
    obtain ⟨lookup', arrived, handed, cache, checked⟩ := authorizeSession_spec waits frame nowMs
    refine ⟨lookup', (congrArg List.length arrived).trans List.length_append, handed, cache, ?_⟩
    cases checked with
    | ignored lookups microtasks => exact .ignored lookups microtasks
    | cached d there fresh lookups microtasks => exact .cached d there fresh lookups microtasks
    | asked lookups microtasks => exact .asked lookups microtasks

theorem roleFound_spec {role : Option DocumentRole}
    (moved : g.step (.roleFound frame role) = .ok g') :
    g'.lookupRole = g.lookupRole ∧ g'.arrived = g.arrived ∧ g'.handed = g.handed ∧
      (∀ lookup ∈ g'.lookups, lookup ∈ g.lookups) ∧
      g'.microtasks = g.microtasks ++ [(frame, decide (Writing role))] ∧
      ∃ start, (frame, start) ∈ g.lookups ∧ g'.authDecisionCache =
        Function.update g.authDecisionCache frame.session
          (some ⟨decide (Writing role), start + AUTH_DECISION_TTL_MS⟩) := by
  simp only [step] at moved
  cases found : g.lookups.find? fun l => l.1 = frame with
  | none =>
      rw [found] at moved
      cases moved
  | some lookup =>
      obtain ⟨asker, start⟩ := lookup
      rw [found] at moved
      obtain rfl := Except.ok.inj moved
      have allowed : (decide (role = some .editor) || decide (role = some .owner)) =
          decide (Writing role) := (Bool.decide_or _ _).symm
      have same : asker = frame := by simpa using List.find?_some found
      rw [allowed]
      refine ⟨rfl, rfl, rfl, fun l member => List.mem_of_mem_eraseP member, rfl, start, ?_, rfl⟩
      rw [← same]
      exact List.mem_of_find?_eq_some found

theorem lookupFailed_spec (moved : g.step (.lookupFailed frame) = .ok g') :
    g'.lookupRole = g.lookupRole ∧ g'.arrived = g.arrived ∧ g'.handed = g.handed ∧
      g'.authDecisionCache = g.authDecisionCache ∧ g'.microtasks = g.microtasks ∧
        ∀ lookup ∈ g'.lookups, lookup ∈ g.lookups := by
  simp only [step] at moved
  split_ifs at moved
  obtain rfl := Except.ok.inj moved
  exact ⟨rfl, rfl, rfl, rfl, rfl, fun l member => List.mem_of_mem_eraseP member⟩

/-- Only a frame that was allowed goes through the write path. -/
theorem resume_spec {rateLimited : Bool} (moved : g.step (.resume rateLimited nowMs) = .ok g') :
    g'.lookupRole = g.lookupRole ∧ g'.arrived = g.arrived ∧ g'.lookups = g.lookups ∧
      g'.authDecisionCache = g.authDecisionCache ∧ (∀ task ∈ g'.microtasks, task ∈ g.microtasks) ∧
        ∀ frame ∈ g'.handed, frame ∈ g.handed ∨ (frame, true) ∈ g.microtasks := by
  simp only [step] at moved
  cases tasks : g.microtasks with
  | nil =>
      rw [tasks] at moved
      cases moved
  | cons task rest =>
      obtain ⟨frame, allowed⟩ := task
      simp only [tasks] at moved
      split_ifs at moved with passes
      · obtain ⟨⟨coordinator, relays⟩, -, went⟩ := Throwing.ok_of_bind moved
        obtain rfl := Except.ok.inj went
        refine ⟨rfl, rfl, rfl, rfl, fun task member => List.mem_cons_of_mem _ member, ?_⟩
        intro other member
        rcases List.mem_append.mp member with before | new
        · exact Or.inl before
        · obtain rfl := List.mem_singleton.mp new
          unfold Gateway.passes at passes
          simp only [Bool.and_eq_true] at passes
          rw [passes.1.1]
          exact Or.inr List.mem_cons_self
      · obtain rfl := Except.ok.inj moved
        exact ⟨rfl, rfl, rfl, rfl, fun task member => List.mem_cons_of_mem _ member,
          fun _ member => Or.inl member⟩

theorem pushRole_spec (g : Gateway) (sessions : List Nat) (role : SessionRole) :
    (g.pushRole sessions role).lookupRole = g.lookupRole ∧
      (g.pushRole sessions role).arrived = g.arrived ∧
      (g.pushRole sessions role).handed = g.handed ∧
      (g.pushRole sessions role).lookups = g.lookups ∧
      (g.pushRole sessions role).microtasks = g.microtasks ∧
      ∀ k, (g.pushRole sessions role).authDecisionCache k =
        if k ∈ sessions then none else g.authDecisionCache k := by
  unfold pushRole
  induction sessions generalizing g with
  | nil => exact ⟨rfl, rfl, rfl, rfl, rfl, fun _ => rfl⟩
  | cons j sessions ih =>
      obtain ⟨lookup, arrived, handed, lookups, microtasks, cache⟩ := ih { g.setRole j role with
        authDecisionCache := Function.update g.authDecisionCache j none }
      refine ⟨lookup, arrived, handed, lookups, microtasks, fun k => (cache k).trans ?_⟩
      by_cases later : k ∈ sessions
      · rw [if_pos later, if_pos (List.mem_cons_of_mem _ later)]
      · rw [if_neg later]
        by_cases here : k = j
        · rw [here, if_pos List.mem_cons_self]
          exact Function.update_self ..
        · rw [if_neg (by simp [here, later])]
          exact Function.update_of_ne here ..

end Gateway

namespace Authorizing

open Run Gateway

/-- The check of an operation of this user that begins now is late. -/
def Late (s : Authorizing) (user : Nat) : Prop :=
  ∃ x ∈ s.revoked user, x.pushedAt ≠ none ∨ x.committedAt + AUTH_DECISION_TTL_MS < s.nowMs

instance (s : Authorizing) (user : Nat) : Decidable (s.Late user) :=
  match revoked : s.revoked user with
  | none => isFalse fun ⟨x, member, _⟩ => by
      rw [revoked] at member
      cases member
  | some x => decidable_of_iff
      (x.pushedAt ≠ none ∨ x.committedAt + AUTH_DECISION_TTL_MS < s.nowMs) (by
        unfold Late
        rw [revoked]
        simp)

/-- The coordinator was built with a role lookup. -/
def start (e : Engine) (queue : CommitQueue) (sessions : Nat → CoordinatorSession)
    (roles : Nat → Option DocumentRole) : Authorizing :=
  ⟨.start e queue sessions true, 0, roles, [], [], fun _ => none, [], fun _ => none, []⟩

section

-- The user that a session belongs to.
variable (userOf : Nat → Nat)

/-- A change of a role is committed. A grant ends the revocation, also for the checks under way. -/
def commitRole (s : Authorizing) (user : Nat) (role : Option DocumentRole) : Authorizing :=
  let s := { s with
    roles := Function.update s.roles user role
    unpushed := s.unpushed ++ [(user, role)] }
  if Writing role then
    { s with
      revoked := Function.update s.revoked user none
      late := s.late.filter fun frame => userOf frame.session ≠ user }
  else
    let revocation := (s.revoked user).getD ⟨s.nowMs, none⟩
    { s with revoked := Function.update s.revoked user (some revocation) }

/-- A committed change is pushed to the sessions of the user. -/
def pushCommitted (s : Authorizing) (user : Nat) (role : Option DocumentRole) : Authorizing :=
  let sessionRole := (role.map documentRoleToSessionRole).getD .VIEWER
  let gateway := s.gateway.pushRole (s.connected.filter fun k => userOf k = user) sessionRole
  let revoked := if Writing role then s.revoked
    else Function.update s.revoked user
      ((s.revoked user).map fun x => { x with pushedAt := some s.nowMs })
  { s with gateway, revoked }

def step (s : Authorizing) : AuthorizingEvent → Except String Authorizing
  | .tick ms => .ok { s with nowMs := s.nowMs + ms }
  | .connect k =>
      if k ∈ s.known then .error "the session has been connected"
      else .ok { s with connected := k :: s.connected, known := k :: s.known }
  | .disconnect k => .ok { s with connected := s.connected.filter fun j => j ≠ k }
  | .arrive k ops circuitBreakerTripped => do
      if k ∈ s.connected then
        let frame : OpsFrame := ⟨s.gateway.arrived.length, k, ops⟩
        let gateway ← s.gateway.step (.arrive k ops s.nowMs circuitBreakerTripped)
        .ok { s with gateway, late := if s.Late (userOf k) then frame :: s.late else s.late }
      else .error "the session is not connected"
  | .read frame =>
      if frame ∈ s.gateway.lookups.map Prod.fst ∧ s.answers frame = none then
        .ok { s with answers := Function.update s.answers frame (some (s.roles (userOf frame.session))) }
      else .error "no lookup is about to read"
  | .answer frame =>
      match s.answers frame with
      | none => .error "the lookup has not read"
      | some role => do
          let gateway ← s.gateway.step (.roleFound frame role)
          .ok { s with gateway }
  | .lookupFailed frame => do
      let gateway ← s.gateway.step (.lookupFailed frame)
      .ok { s with gateway }
  | .resume rateLimited => do
      let gateway ← s.gateway.step (.resume rateLimited s.nowMs)
      .ok { s with gateway }
  | .commit user role => .ok (s.commitRole userOf user role)
  | .push i =>
      match s.unpushed[i]? with
      | none => .error "no such change"
      | some (user, role) =>
          .ok ({ s with unpushed := s.unpushed.eraseIdx i }.pushCommitted userOf user role)

/-! ### The property -/

/-- No operation whose check was late has been accepted. -/
def RevocationEffective (s : Authorizing) : Prop := ∀ frame ∈ s.late, frame ∉ s.gateway.handed

/-- When a non-writing role is pushed while the user's role is a non-writing one, no lookup of a
connected session of the user is in flight that has read a writing role and began less than the
lifetime of a decision ago. -/
def PushedAfterLookups (s : Authorizing) : AuthorizingEvent → Prop
  | .push i => ∀ change ∈ s.unpushed[i]?, ¬ Writing change.2 → ¬ Writing (s.roles change.1) →
      ∀ lookup ∈ s.gateway.lookups, lookup.1.session ∈ s.connected →
        userOf lookup.1.session = change.1 → s.nowMs < lookup.2 + AUTH_DECISION_TTL_MS →
          ∀ role ∈ s.answers lookup.1, ¬ Writing role
  | _ => True

instance (s : Authorizing) (e : AuthorizingEvent) : Decidable (s.PushedAfterLookups userOf e) := by
  unfold PushedAfterLookups
  split <;> infer_instance

/-! ### The invariant -/

/-- What holds of the frames and the times, whatever the roles. -/
structure Clocked (s : Authorizing) : Prop where
  lookup : s.gateway.lookupRole = true
  started : ∀ l ∈ s.gateway.lookups, l.2 ≤ s.nowMs
  expiry : ∀ k, ∀ d ∈ s.gateway.authDecisionCache k, d.expiresAt ≤ s.nowMs + AUTH_DECISION_TTL_MS
  askers : ∀ l ∈ s.gateway.lookups, l.1.label < s.gateway.arrived.length ∧ l.1.session ∈ s.known
  asked : ∀ frame, s.answers frame ≠ none → frame.label < s.gateway.arrived.length
  tasks : ∀ task ∈ s.gateway.microtasks, task.1.label < s.gateway.arrived.length
  handed : ∀ frame ∈ s.gateway.handed, frame.label < s.gateway.arrived.length
  cached : ∀ k, s.gateway.authDecisionCache k ≠ none → k ∈ s.known
  connected : ∀ k ∈ s.connected, k ∈ s.known

/-- A frame whose check was late is on its way to be refused. -/
structure Refused (s : Authorizing) (frame : OpsFrame) : Prop where
  label : frame.label < s.gateway.arrived.length
  revoked : s.revoked (userOf frame.session) ≠ none
  answer : ∀ role ∈ s.answers frame, ¬ Writing role
  task : (frame, true) ∉ s.gateway.microtasks
  handed : frame ∉ s.gateway.handed

/-- The decisions on an earlier role end at the fence, those that are cached and those that lookups in
flight will lead to. -/
structure Fenced (s : Authorizing) : Prop where
  clocked : Clocked s
  barred : ∀ user, ∀ x ∈ s.revoked user, ¬ Writing (s.roles user) ∧ ∀ p ∈ x.pushedAt, p ≤ s.nowMs
  decisions : ∀ k ∈ s.connected, ∀ x ∈ s.revoked (userOf k), ∀ d ∈ s.gateway.authDecisionCache k,
    d.allowed = true → d.expiresAt ≤ x.fence
  lookups : ∀ l ∈ s.gateway.lookups, l.1.session ∈ s.connected →
    ∀ x ∈ s.revoked (userOf l.1.session), ∀ role ∈ s.answers l.1, Writing role →
      l.2 + AUTH_DECISION_TTL_MS ≤ x.fence
  late : ∀ frame ∈ s.late, Refused userOf s frame

variable {userOf} {s s' : Authorizing}

theorem fenced_start (e : Engine) (queue : CommitQueue) (sessions : Nat → CoordinatorSession)
    (roles : Nat → Option DocumentRole) : Fenced userOf (start e queue sessions roles) where
  clocked := ⟨rfl, nofun, nofun, nofun, fun _ asked => absurd rfl asked, nofun, nofun,
    fun _ cached => absurd rfl cached, nofun⟩
  barred := nofun
  decisions := nofun
  lookups := nofun
  late := nofun

theorem Fenced.effective (fenced : Fenced userOf s) : RevocationEffective s :=
  fun frame late => (fenced.late frame late).handed

/-- A decision that lasts is not on a role from before the revocation. -/
theorem Fenced.refuses (fenced : Fenced userOf s) {k : Nat} (connected : k ∈ s.connected)
    (late : s.Late (userOf k)) {d : AuthDecision} (there : s.gateway.authDecisionCache k = some d)
    (lasts : s.nowMs < d.expiresAt) : d.allowed = false := by
  obtain ⟨x, revoked, ends⟩ := late
  by_contra allowed
  have bound := fenced.decisions k connected x revoked d there (Bool.not_eq_false _ ▸ allowed)
  have passed : x.fence ≤ s.nowMs := by
    unfold Revocation.fence
    cases pushed : x.pushedAt with
    | some p => exact (fenced.barred _ x revoked).2 p pushed
    | none =>
        rcases ends with pushed' | expired
        · exact absurd pushed pushed'
        · exact Nat.le_of_lt expired
  exact absurd (Nat.le_trans bound passed) (Nat.not_le.mpr lasts)

/-! ### The steps -/

theorem Refused.carry {frame : OpsFrame} (refused : Refused userOf s frame)
    (label : s.gateway.arrived.length ≤ s'.gateway.arrived.length) (revoked : s'.revoked = s.revoked)
    (answers : s'.answers frame = s.answers frame)
    (task : (frame, true) ∈ s'.gateway.microtasks → (frame, true) ∈ s.gateway.microtasks)
    (handed : frame ∈ s'.gateway.handed →
      frame ∈ s.gateway.handed ∨ (frame, true) ∈ s.gateway.microtasks) :
    Refused userOf s' frame where
  label := Nat.lt_of_lt_of_le refused.label label
  revoked := by
    rw [revoked]
    exact refused.revoked
  answer := by
    rw [answers]
    exact refused.answer
  task member := refused.task (task member)
  handed member := (handed member).elim refused.handed refused.task

theorem Fenced.tick (fenced : Fenced userOf s) (ms : Nat) :
    Fenced userOf { s with nowMs := s.nowMs + ms } where
  clocked := { fenced.clocked with
    started := fun l member => Nat.le_add_right_of_le (fenced.clocked.started l member)
    expiry := fun k d member => by
      have before := fenced.clocked.expiry k d member
      show d.expiresAt ≤ s.nowMs + ms + AUTH_DECISION_TTL_MS
      omega }
  barred user x member := ⟨(fenced.barred user x member).1, fun p pushed =>
    Nat.le_add_right_of_le ((fenced.barred user x member).2 p pushed)⟩
  decisions := fenced.decisions
  lookups := fenced.lookups
  late frame member := (fenced.late frame member).carry (Nat.le_refl _) rfl rfl id Or.inl

/-- A session that is new has neither decisions nor lookups. -/
theorem Fenced.connect (fenced : Fenced userOf s) {k : Nat} (new : k ∉ s.known) :
    Fenced userOf { s with connected := k :: s.connected, known := k :: s.known } where
  clocked := { fenced.clocked with
    askers := fun l member => ⟨(fenced.clocked.askers l member).1,
      List.mem_cons_of_mem _ (fenced.clocked.askers l member).2⟩
    cached := fun j cached => List.mem_cons_of_mem _ (fenced.clocked.cached j cached)
    connected := fun j member => by
      rcases List.mem_cons.mp member with rfl | before
      · exact List.mem_cons_self
      · exact List.mem_cons_of_mem _ (fenced.clocked.connected j before) }
  barred := fenced.barred
  decisions j member x revoked d there := by
    rcases List.mem_cons.mp member with rfl | before
    · have cached : s.gateway.authDecisionCache j ≠ none := by
        rw [show s.gateway.authDecisionCache j = some d from there]
        nofun
      exact absurd (fenced.clocked.cached j cached) new
    · exact fenced.decisions j before x revoked d there
  lookups l member connected := by
    rcases List.mem_cons.mp connected with same | before
    · exact absurd (same ▸ (fenced.clocked.askers l member).2) new
    · exact fenced.lookups l member before
  late frame member := (fenced.late frame member).carry (Nat.le_refl _) rfl rfl id Or.inl

theorem Fenced.disconnect (fenced : Fenced userOf s) (k : Nat) :
    Fenced userOf { s with connected := s.connected.filter fun j => j ≠ k } where
  clocked := { fenced.clocked with
    connected := fun j member => fenced.clocked.connected j (List.mem_of_mem_filter member) }
  barred := fenced.barred
  decisions j member := fenced.decisions j (List.mem_of_mem_filter member)
  lookups l member connected := fenced.lookups l member (List.mem_of_mem_filter connected)
  late frame member := (fenced.late frame member).carry (Nat.le_refl _) rfl rfl id Or.inl

theorem Fenced.arrive (fenced : Fenced userOf s) {k : Nat} {ops : List Operation} {tripped : Bool}
    {gateway : Gateway} (connected : k ∈ s.connected)
    (moved : s.gateway.step (.arrive k ops s.nowMs tripped) = .ok gateway) :
    Fenced userOf { s with
      gateway
      late := if s.Late (userOf k) then ⟨s.gateway.arrived.length, k, ops⟩ :: s.late else s.late } := by
  have clocked := fenced.clocked
  obtain ⟨lookup, arrived, handed, cache, checked⟩ := arrive_spec clocked.lookup moved
  set frame : OpsFrame := ⟨s.gateway.arrived.length, k, ops⟩ with frame_eq
  have grown : ∀ n < s.gateway.arrived.length, n < gateway.arrived.length := fun n below => by
    rw [arrived]
    exact Nat.lt_succ_of_lt below
  have label : frame.label < gateway.arrived.length := by
    rw [arrived]
    exact Nat.lt_succ_self _
  -- Nothing has been said about the frame before.
  have unread : s.answers frame = none := by
    by_contra read
    exact Nat.lt_irrefl _ (clocked.asked frame read)
  have untold : ∀ task ∈ s.gateway.microtasks, task.1 ≠ frame := fun task member same =>
    Nat.lt_irrefl s.gateway.arrived.length (by simpa [same, frame_eq] using clocked.tasks task member)
  have unhanded : frame ∉ s.gateway.handed := fun member =>
    Nat.lt_irrefl _ (clocked.handed frame member)
  have others : ∀ late, ∀ other ∈ s.late, Refused userOf { s with gateway, late } other := by
    intro late other member
    have refused := fenced.late other member
    have longer : s.gateway.arrived.length ≤ gateway.arrived.length := by
      rw [arrived]
      exact Nat.le_succ _
    refine refused.carry longer rfl rfl (fun task => ?_) fun member => Or.inl (handed ▸ member)
    rcases checked.task_cases task with before | ⟨same, -⟩
    · exact before
    · have below := refused.label
      rw [show other = frame from same] at below
      exact absurd below (Nat.lt_irrefl _)
  refine ⟨⟨lookup, ?_, ?_, ?_, ?_, ?_, ?_, ?_, clocked.connected⟩, fenced.barred, ?_, ?_, ?_⟩
  · intro l member
    rcases checked.lookup_cases member with before | rfl
    · exact clocked.started l before
    · exact Nat.le_refl _
  · rw [cache]
    exact clocked.expiry
  · intro l member
    rcases checked.lookup_cases member with before | rfl
    · exact ⟨grown _ (clocked.askers l before).1, (clocked.askers l before).2⟩
    · exact ⟨label, clocked.connected k connected⟩
  · exact fun other asked => grown _ (clocked.asked other asked)
  · intro task member
    rcases checked.task_cases member with before | ⟨same, -⟩
    · exact grown _ (clocked.tasks task before)
    · rw [same]
      exact label
  · intro other member
    exact grown _ (clocked.handed other (handed ▸ member))
  · rw [cache]
    exact clocked.cached
  · rw [cache]
    exact fenced.decisions
  · intro l member inside x revoked role answer
    rcases checked.lookup_cases member with before | rfl
    · exact fenced.lookups l before inside x revoked role answer
    · rw [unread] at answer
      cases answer
  · intro other member
    show Refused userOf _ other
    by_cases late : s.Late (userOf k)
    · rw [if_pos late] at member
      rcases List.mem_cons.mp member with rfl | before
      · refine ⟨label, ?_, ?_, fun task => ?_, fun member => unhanded (handed ▸ member)⟩
        · obtain ⟨x, revoked, -⟩ := late
          show s.revoked (userOf k) ≠ none
          rw [show s.revoked (userOf k) = some x from revoked]
          nofun
        · intro role answer
          rw [show s.answers frame = some role from answer] at unread
          cases unread
        · rcases checked.task_cases task with before | ⟨-, d, there, lasts, allowed⟩
          · exact untold _ before rfl
          · rw [fenced.refuses connected late there lasts] at allowed
            cases allowed
      · exact others _ other before
    · rw [if_neg late] at member
      exact others _ other member

theorem Fenced.read (fenced : Fenced userOf s) {frame : OpsFrame}
    (asks : frame ∈ s.gateway.lookups.map Prod.fst) :
    Fenced userOf { s with
      answers := Function.update s.answers frame (some (s.roles (userOf frame.session))) } := by
  obtain ⟨asker, inFlight, rfl⟩ := List.mem_map.mp asks
  have refused_role : ∀ x ∈ s.revoked (userOf asker.1.session),
      ¬ Writing (s.roles (userOf asker.1.session)) := fun x revoked => (fenced.barred _ x revoked).1
  refine ⟨{ fenced.clocked with asked := fun other asked => ?_ }, fenced.barred, fenced.decisions,
    ?_, ?_⟩
  · by_cases same : other = asker.1
    · rw [same]
      exact (fenced.clocked.askers asker inFlight).1
    · change Function.update s.answers asker.1 _ other ≠ none at asked
      rw [Function.update_of_ne same] at asked
      exact fenced.clocked.asked other asked
  · intro l member inside x revoked role answer writing
    by_cases same : l.1 = asker.1
    · change role ∈ Function.update s.answers asker.1 _ l.1 at answer
      rw [same, Function.update_self] at answer
      obtain rfl := Option.some.inj answer
      rw [same] at revoked
      exact absurd writing (refused_role x revoked)
    · change role ∈ Function.update s.answers asker.1 _ l.1 at answer
      rw [Function.update_of_ne same] at answer
      exact fenced.lookups l member inside x revoked role answer writing
  · intro other member
    have refused := fenced.late other member
    refine ⟨refused.label, refused.revoked, fun role answer => ?_, refused.task, refused.handed⟩
    change role ∈ Function.update s.answers asker.1 _ other at answer
    by_cases same : other = asker.1
    · rw [same, Function.update_self] at answer
      obtain rfl := Option.some.inj answer
      obtain ⟨x, revoked⟩ := Option.ne_none_iff_exists'.mp refused.revoked
      exact refused_role x (same ▸ revoked)
    · rw [Function.update_of_ne same] at answer
      exact refused.answer role answer

theorem Fenced.answer (fenced : Fenced userOf s) {frame : OpsFrame} {role : Option DocumentRole}
    {gateway : Gateway} (read : s.answers frame = some role)
    (moved : s.gateway.step (.roleFound frame role) = .ok gateway) :
    Fenced userOf { s with gateway } := by
  have clocked := fenced.clocked
  obtain ⟨lookup, arrived, handed, lookups, tasks, start, inFlight, cache⟩ := roleFound_spec moved
  have label := (clocked.askers _ inFlight).1
  refine ⟨⟨lookup.trans clocked.lookup, ?_, ?_, ?_, ?_, ?_, ?_, ?_, clocked.connected⟩, fenced.barred, ?_,
    fun l member => fenced.lookups l (lookups l member), ?_⟩
  · exact fun l member => clocked.started l (lookups l member)
  · intro k d there
    rw [cache] at there
    by_cases same : k = frame.session
    · rw [same, Function.update_self] at there
      obtain rfl := Option.some.inj there
      exact Nat.add_le_add_right (clocked.started _ inFlight) _
    · rw [Function.update_of_ne same] at there
      exact clocked.expiry k d there
  · rw [arrived]
    exact fun l member => clocked.askers l (lookups l member)
  · rw [arrived]
    exact clocked.asked
  · intro task member
    rw [arrived]
    rw [tasks] at member
    rcases List.mem_append.mp member with before | new
    · exact clocked.tasks task before
    · rw [List.mem_singleton.mp new]
      exact label
  · rw [arrived, handed]
    exact clocked.handed
  · intro k cached
    rw [cache] at cached
    by_cases same : k = frame.session
    · rw [same]
      exact (clocked.askers _ inFlight).2
    · rw [Function.update_of_ne same] at cached
      exact clocked.cached k cached
  · intro k connected x revoked d there allowed
    change d ∈ gateway.authDecisionCache k at there
    rw [cache] at there
    by_cases same : k = frame.session
    · subst same
      rw [Function.update_self] at there
      obtain rfl := Option.some.inj there
      exact fenced.lookups _ inFlight connected x revoked role read (of_decide_eq_true allowed)
    · rw [Function.update_of_ne same] at there
      exact fenced.decisions k connected x revoked d there allowed
  · intro other member
    have refused := fenced.late other member
    refine ⟨arrived ▸ refused.label, refused.revoked, refused.answer, fun task => ?_,
      handed ▸ refused.handed⟩
    rw [tasks] at task
    rcases List.mem_append.mp task with before | new
    · exact refused.task before
    · obtain ⟨rfl, allowed⟩ := Prod.mk.inj (List.mem_singleton.mp new)
      exact refused.answer role read (of_decide_eq_true allowed.symm)

theorem Fenced.lookupFailed (fenced : Fenced userOf s) {frame : OpsFrame} {gateway : Gateway}
    (moved : s.gateway.step (.lookupFailed frame) = .ok gateway) :
    Fenced userOf { s with gateway } := by
  have clocked := fenced.clocked
  obtain ⟨lookup, arrived, handed, cache, tasks, lookups⟩ := lookupFailed_spec moved
  constructor
  · constructor
    · exact lookup.trans clocked.lookup
    · exact fun l member => clocked.started l (lookups l member)
    · exact cache ▸ clocked.expiry
    · exact arrived ▸ fun l member => clocked.askers l (lookups l member)
    · exact arrived ▸ clocked.asked
    · exact arrived ▸ tasks ▸ clocked.tasks
    · exact arrived ▸ handed ▸ clocked.handed
    · exact cache ▸ clocked.cached
    · exact clocked.connected
  · exact fenced.barred
  · exact cache ▸ fenced.decisions
  · exact fun l member => fenced.lookups l (lookups l member)
  · exact fun other member => (fenced.late other member).carry (arrived ▸ Nat.le_refl _) rfl rfl
      (fun task => tasks ▸ task) fun there => Or.inl (handed ▸ there)

theorem Fenced.resume (fenced : Fenced userOf s) {rateLimited : Bool} {gateway : Gateway}
    (moved : s.gateway.step (.resume rateLimited s.nowMs) = .ok gateway) :
    Fenced userOf { s with gateway } := by
  have clocked := fenced.clocked
  obtain ⟨lookup, arrived, lookups, cache, tasks, handed⟩ := resume_spec moved
  constructor
  · constructor
    · exact lookup.trans clocked.lookup
    · exact lookups ▸ clocked.started
    · exact cache ▸ clocked.expiry
    · exact arrived ▸ lookups ▸ clocked.askers
    · exact arrived ▸ clocked.asked
    · exact arrived ▸ fun task member => clocked.tasks task (tasks task member)
    · intro frame member
      rw [arrived]
      rcases handed frame member with before | task
      · exact clocked.handed frame before
      · exact clocked.tasks _ task
    · exact cache ▸ clocked.cached
    · exact clocked.connected
  · exact fenced.barred
  · exact cache ▸ fenced.decisions
  · exact lookups ▸ fenced.lookups
  · exact fun other member => (fenced.late other member).carry (arrived ▸ Nat.le_refl _) rfl rfl
      (fun task => tasks _ task) fun there => handed other there

/-- A grant ends the revocation and clears the user's late frames; a change to a non-writing role
begins one, unless there is one already. -/
theorem Fenced.commitRole (fenced : Fenced userOf s) (user : Nat) (role : Option DocumentRole) :
    Fenced userOf (s.commitRole userOf user role) := by
  unfold Authorizing.commitRole
  dsimp only
  split_ifs with grant
  · -- What concerns other users is as before.
    have others : ∀ {u : Nat} {x : Revocation}, x ∈ Function.update s.revoked user none u →
        u ≠ user ∧ x ∈ s.revoked u := by
      intro u x revoked
      by_cases same : u = user
      · rw [same, Function.update_self] at revoked
        cases revoked
      · rw [Function.update_of_ne same] at revoked
        exact ⟨same, revoked⟩
    refine ⟨{ fenced.clocked with }, ?_, ?_, ?_, ?_⟩
    · intro u x revoked
      obtain ⟨other, before⟩ := others revoked
      show ¬ Writing (Function.update s.roles user role u) ∧ _
      rw [Function.update_of_ne other]
      exact fenced.barred u x before
    · exact fun k connected x revoked => fenced.decisions k connected x (others revoked).2
    · exact fun l member inside x revoked => fenced.lookups l member inside x (others revoked).2
    · intro frame member
      obtain ⟨before, other⟩ := List.mem_filter.mp member
      have refused := fenced.late frame before
      refine ⟨refused.label, ?_, refused.answer, refused.task, refused.handed⟩
      show Function.update s.revoked user none (userOf frame.session) ≠ none
      rw [Function.update_of_ne (of_decide_eq_true other)]
      exact refused.revoked
  · set revocation := (s.revoked user).getD ⟨s.nowMs, none⟩ with revocation_eq
    -- The revocation of the user is the one there was, or begins now.
    have begun : s.revoked user = some revocation ∨ revocation = ⟨s.nowMs, none⟩ := by
      cases before : s.revoked user with
      | none => exact Or.inr (by rw [revocation_eq, before]; rfl)
      | some x => exact Or.inl (by rw [revocation_eq, before]; rfl)
    have cases : ∀ {u : Nat} {x : Revocation},
        x ∈ Function.update s.revoked user (some revocation) u →
          x ∈ s.revoked u ∨ u = user ∧ x = ⟨s.nowMs, none⟩ := by
      intro u x revoked
      by_cases same : u = user
      · subst same
        rw [Function.update_self] at revoked
        obtain rfl := Option.some.inj revoked
        exact begun.imp id fun new => ⟨rfl, new⟩
      · rw [Function.update_of_ne same] at revoked
        exact Or.inl revoked
    refine ⟨{ fenced.clocked with }, ?_, ?_, ?_, ?_⟩
    · intro u x revoked
      have times : ∀ p ∈ x.pushedAt, p ≤ s.nowMs := by
        rcases cases revoked with before | ⟨-, rfl⟩
        · exact (fenced.barred u x before).2
        · nofun
      refine ⟨?_, times⟩
      show ¬ Writing (Function.update s.roles user role u)
      by_cases same : u = user
      · rw [same, Function.update_self]
        exact grant
      · rw [Function.update_of_ne same]
        change x ∈ Function.update s.revoked user (some revocation) u at revoked
        rw [Function.update_of_ne same] at revoked
        exact (fenced.barred u x revoked).1
    · intro k connected x revoked d there allowed
      rcases cases revoked with before | ⟨-, rfl⟩
      · exact fenced.decisions k connected x before d there allowed
      · exact fenced.clocked.expiry k d there
    · intro l member inside x revoked answer read writing
      rcases cases revoked with before | ⟨-, rfl⟩
      · exact fenced.lookups l member inside x before answer read writing
      · exact Nat.add_le_add_right (fenced.clocked.started l member) _
    · intro frame member
      have refused := fenced.late frame member
      refine ⟨refused.label, ?_, refused.answer, refused.task, refused.handed⟩
      show Function.update s.revoked user (some revocation) (userOf frame.session) ≠ none
      by_cases same : userOf frame.session = user
      · rw [same, Function.update_self]
        nofun
      · rw [Function.update_of_ne same]
        exact refused.revoked

/-- A push deletes the decisions of the user's sessions, and no lookup brings an earlier one back. -/
theorem Fenced.pushCommitted (fenced : Fenced userOf s) {user : Nat} {role : Option DocumentRole}
    (inTime : ¬ Writing role → ¬ Writing (s.roles user) → ∀ l ∈ s.gateway.lookups,
      l.1.session ∈ s.connected → userOf l.1.session = user → s.nowMs < l.2 + AUTH_DECISION_TTL_MS →
        ∀ answer ∈ s.answers l.1, ¬ Writing answer) :
    Fenced userOf (s.pushCommitted userOf user role) := by
  have clocked := fenced.clocked
  unfold Authorizing.pushCommitted
  dsimp only
  set sessions := s.connected.filter fun k => userOf k = user with sessions_eq
  obtain ⟨lookup, arrived, handed, lookups, tasks, cache⟩ :=
    pushRole_spec s.gateway sessions ((role.map documentRoleToSessionRole).getD .VIEWER)
  set gateway := s.gateway.pushRole sessions ((role.map documentRoleToSessionRole).getD .VIEWER)
  set revoked := if Writing role then s.revoked else Function.update s.revoked user
    ((s.revoked user).map fun x => { x with pushedAt := some s.nowMs }) with revoked_eq
  have kept : ∀ {k : Nat} {d : AuthDecision}, d ∈ gateway.authDecisionCache k →
      k ∉ sessions ∧ d ∈ s.gateway.authDecisionCache k := by
    intro k d there
    rw [cache] at there
    split_ifs at there with deleted
    · cases there
    · exact ⟨deleted, there⟩
  -- The fence of the user moves to the time of the push, that of another user stays.
  have cases : ∀ {u : Nat} {x : Revocation}, x ∈ revoked u → x ∈ s.revoked u ∨
      u = user ∧ ¬ Writing role ∧ (∃ before ∈ s.revoked user, True) ∧ x.pushedAt = some s.nowMs := by
    intro u x there
    rw [revoked_eq] at there
    split_ifs at there with grant
    · exact Or.inl there
    · by_cases same : u = user
      · subst same
        rw [Function.update_self] at there
        obtain ⟨before, was, rfl⟩ := Option.map_eq_some_iff.mp there
        exact Or.inr ⟨rfl, grant, ⟨before, was, trivial⟩, rfl⟩
      · rw [Function.update_of_ne same] at there
        exact Or.inl there
  have remains : ∀ u, s.revoked u ≠ none → revoked u ≠ none := by
    intro u there
    rw [revoked_eq]
    split_ifs with grant
    · exact there
    · by_cases same : u = user
      · subst same
        rw [Function.update_self]
        exact fun gone => there (Option.map_eq_none_iff.mp gone)
      · rw [Function.update_of_ne same]
        exact there
  constructor
  · constructor
    · exact lookup.trans clocked.lookup
    · exact lookups ▸ clocked.started
    · exact fun k d there => clocked.expiry k d (kept there).2
    · exact arrived ▸ lookups ▸ clocked.askers
    · exact arrived ▸ clocked.asked
    · exact arrived ▸ tasks ▸ clocked.tasks
    · exact arrived ▸ handed ▸ clocked.handed
    · intro k cached
      obtain ⟨d, there⟩ := Option.ne_none_iff_exists'.mp cached
      refine clocked.cached k fun gone => ?_
      have before := (kept there).2
      rw [gone] at before
      cases before
    · exact clocked.connected
  · intro u x there
    rcases cases there with before | ⟨rfl, -, ⟨before, was, -⟩, pushed⟩
    · exact fenced.barred u x before
    · refine ⟨(fenced.barred u before was).1, fun p member => ?_⟩
      rw [pushed] at member
      obtain rfl := Option.some.inj member
      exact Nat.le_refl _
  · intro k connected x there d inCache allowed
    obtain ⟨elsewhere, before⟩ := kept inCache
    rcases cases there with was | ⟨same, -⟩
    · exact fenced.decisions k connected x was d before allowed
    · have here : k ∈ sessions := List.mem_filter.mpr ⟨connected, decide_eq_true same⟩
      exact absurd here elsewhere
  · intro l member inside x there answer read writing
    have same : ({ s with gateway, revoked } : Authorizing).gateway.lookups = s.gateway.lookups := lookups
    rw [same]
      at member
    rcases cases there with was | ⟨same, refuses, ⟨before, was, -⟩, pushed⟩
    · exact fenced.lookups l member inside x was answer read writing
    · have barred := (fenced.barred user before was).1
      have past : ¬ s.nowMs < l.2 + AUTH_DECISION_TTL_MS := fun lasts =>
        inTime refuses barred l member inside same lasts answer read writing
      unfold Revocation.fence
      rw [pushed]
      exact Nat.not_lt.mp past
  · intro frame member
    have refused := fenced.late frame member
    exact ⟨arrived ▸ refused.label, remains _ refused.revoked, refused.answer,
      tasks ▸ refused.task, handed ▸ refused.handed⟩

/-- One event keeps the invariant, if a push meets its condition. -/
theorem fenced_step (e : AuthorizingEvent) (fenced : Fenced userOf s)
    (inTime : s.PushedAfterLookups userOf e) (moved : s.step userOf e = .ok s') : Fenced userOf s' := by
  cases e with
  | tick ms =>
      obtain rfl := Except.ok.inj moved
      exact fenced.tick ms
  | connect k =>
      simp only [step] at moved
      split_ifs at moved with known
      obtain rfl := Except.ok.inj moved
      exact fenced.connect known
  | disconnect k =>
      obtain rfl := Except.ok.inj moved
      exact fenced.disconnect k
  | arrive k ops tripped =>
      simp only [step] at moved
      by_cases connected : k ∈ s.connected
      · rw [if_pos connected] at moved
        obtain ⟨gateway, went, same⟩ := Throwing.ok_of_bind moved
        obtain rfl := Except.ok.inj same
        exact fenced.arrive connected went
      · rw [if_neg connected] at moved
        cases moved
  | read frame =>
      simp only [step] at moved
      split_ifs at moved with asks
      obtain rfl := Except.ok.inj moved
      exact fenced.read asks.1
  | answer frame =>
      simp only [step] at moved
      cases read : s.answers frame with
      | none =>
          rw [read] at moved
          cases moved
      | some role =>
          rw [read] at moved
          obtain ⟨gateway, went, same⟩ := Throwing.ok_of_bind moved
          obtain rfl := Except.ok.inj same
          exact fenced.answer read went
  | lookupFailed frame =>
      obtain ⟨gateway, went, same⟩ := Throwing.ok_of_bind moved
      obtain rfl := Except.ok.inj same
      exact fenced.lookupFailed went
  | resume rateLimited =>
      obtain ⟨gateway, went, same⟩ := Throwing.ok_of_bind moved
      obtain rfl := Except.ok.inj same
      exact fenced.resume went
  | commit user role =>
      obtain rfl := Except.ok.inj moved
      exact fenced.commitRole user role
  | push i =>
      simp only [step] at moved
      cases change : s.unpushed[i]? with
      | none =>
          rw [change] at moved
          cases moved
      | some pair =>
          obtain ⟨user, role⟩ := pair
          rw [change] at moved
          obtain rfl := Except.ok.inj moved
          have rest : Fenced userOf { s with unpushed := s.unpushed.eraseIdx i } :=
            ⟨{ fenced.clocked with }, fenced.barred, fenced.decisions, fenced.lookups,
              fun frame member => (fenced.late frame member).carry (Nat.le_refl _) rfl rfl id Or.inl⟩
          exact rest.pushCommitted (inTime (user, role) change)

/-! ### The runs -/

/-- No operation is accepted whose check begins after the revocation was pushed, or more than the
lifetime of a decision after it was committed, if no push overtakes a lookup that has read the earlier
role. Where nothing is pushed the condition says nothing. -/
theorem revocation_effective (userOf : Nat → Nat) (e : Engine) (queue : CommitQueue)
    (sessions : Nat → CoordinatorSession) (roles : Nat → Option DocumentRole)
    (events : List AuthorizingEvent)
    (inTime : Each (step userOf) (PushedAfterLookups userOf) (start e queue sessions roles) events) :
    Always (step userOf) RevocationEffective (start e queue sessions roles) events :=
  Always.imp (fun _ fenced => fenced.effective)
    (always_of_each (fun _ e _ fenced met moved => fenced_step e fenced met moved)
      (fenced_start e queue sessions roles) inTime)

end

/-- The server of an empty document with one editor. -/
def opened : Authorizing :=
  start (Engine.new serverReplicaId) ⟨0, 0, []⟩ (fun k => ⟨k, .EDITOR⟩) fun _ => some .editor

def firstFrame : OpsFrame := ⟨0, 1, [.insert ⟨⟨1, 1⟩, 97, none, .R, false⟩]⟩
def secondFrame : OpsFrame := ⟨1, 1, [.insert ⟨⟨2, 1⟩, 98, some ⟨1, 1⟩, .R, false⟩]⟩

/-- The editor becomes a viewer while an operation is being checked; the answer comes before the
push. -/
def answeredFirst : List AuthorizingEvent :=
  [.connect 1, .arrive 1 firstFrame.ops false, .read firstFrame, .commit 7 (some .viewer),
    .answer firstFrame, .resume false, .push 0, .tick 1, .arrive 1 secondFrame.ops false,
    .read secondFrame, .answer secondFrame, .resume false]

theorem revocation_effective_answeredFirst :
    Always (step fun _ => 7) RevocationEffective opened answeredFirst :=
  revocation_effective (fun _ => 7) (Engine.new serverReplicaId) ⟨0, 0, []⟩ (fun k => ⟨k, .EDITOR⟩)
    (fun _ => some .editor) answeredFirst (by decide +kernel)

/-- The answer comes after the push, and the next operation is accepted on it. -/
def pushedFirst : List AuthorizingEvent :=
  [.connect 1, .arrive 1 firstFrame.ops false, .read firstFrame, .commit 7 (some .viewer), .push 0,
    .answer firstFrame, .resume false, .tick 1, .arrive 1 secondFrame.ops false, .resume false]

/-- An answer from before the revocation is cached after the push, and a later operation of the
revoked user is accepted. -/
theorem revocation_masked : ¬ ∀ (userOf : Nat → Nat) (e : Engine) (queue : CommitQueue)
    (sessions : Nat → CoordinatorSession) (roles : Nat → Option DocumentRole)
    (events : List AuthorizingEvent),
    Always (step userOf) RevocationEffective (start e queue sessions roles) events := by
  intro always
  obtain ⟨s, ran, accepted⟩ := exists_of_ends (run (step fun _ => 7) opened pushedFirst)
    (fun s => decide (secondFrame ∈ s.late ∧ secondFrame ∈ s.gateway.handed)) (by decide +kernel)
  obtain ⟨late, handed⟩ := of_decide_eq_true accepted
  exact (always _ _ _ _ _ pushedFirst).last ran secondFrame late handed

end Authorizing

end ConfluenceEditor
