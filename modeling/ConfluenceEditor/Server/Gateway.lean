/-
The gateway's handling of OPS frames.

The handler of a frame runs up to the authorization of its session and then awaits the decision. A
cached decision is there at once, otherwise every frame asks for the role on its own, and the answers
come in any order. A decided frame continues when its turn in the microtask queue comes: it is refused
or goes through the write path. `arrived` and `handed` record the frames in the order of their arrival
and in the order in which the engine got them, `relayed` what was numbered and sent to the peers.
-/

import ConfluenceEditor.Library.Serving
import ConfluenceEditor.Protocol.Messages
import ConfluenceEditor.Server.WritePath

namespace ConfluenceEditor

open Engine Coordinator

inductive DocumentRole where
  | owner
  | editor
  | viewer
  deriving DecidableEq, Repr

def documentRoleToSessionRole : DocumentRole → SessionRole
  | .owner => .OWNER
  | .editor => .EDITOR
  | .viewer => .VIEWER

/-- A connected session, as the write path reads it. -/
structure CoordinatorSession where
  replicaId : Nat
  role : SessionRole
  deriving DecidableEq, Repr

structure AuthDecision where
  allowed : Bool
  expiresAt : Nat
  deriving DecidableEq, Repr

/-- The operations of one OPS frame, and how many frames had arrived before it. -/
structure OpsFrame where
  label : Nat
  session : Nat
  ops : List Operation
  deriving DecidableEq, Repr

structure Gateway where
  coordinator : Coordinator
  sessions : Nat → CoordinatorSession
  /-- Whether the coordinator was built with a role lookup. -/
  lookupRole : Bool
  authDecisionCache : Nat → Option AuthDecision
  /-- The frames whose handler awaits its decision, in the order of their arrival. -/
  waiting : List OpsFrame
  /-- The role lookups in flight, with the time at which they were started. -/
  lookups : List (OpsFrame × Nat)
  /-- The decided frames whose handler is about to continue. -/
  microtasks : List (OpsFrame × Bool)
  arrived : List OpsFrame
  handed : List OpsFrame
  relayed : List Relay

inductive GatewayEvent where
  | arrive (session : Nat) (ops : List Operation) (nowMs : Nat) (circuitBreakerTripped : Bool)
  | roleFound (frame : OpsFrame) (role : Option DocumentRole)
  | lookupFailed (frame : OpsFrame)
  | resume (rateLimited : Bool) (nowMs : Nat)
  | setSessionRoleLive (session : Nat) (role : SessionRole)
  deriving DecidableEq, Repr

namespace Gateway

def AUTH_DECISION_TTL_MS : Nat := 2000

def start (e : Engine) (queue : CommitQueue) (sessions : Nat → CoordinatorSession)
    (lookupRole : Bool) : Gateway :=
  ⟨⟨e, queue, fun _ => none⟩, sessions, lookupRole, fun _ => none, [], [], [], [], [], []⟩

def cacheDecision (g : Gateway) (session : Nat) (allowed : Bool) (now : Nat) : Gateway :=
  let decision : AuthDecision := ⟨allowed, now + AUTH_DECISION_TTL_MS⟩
  { g with authDecisionCache := Function.update g.authDecisionCache session (some decision) }

def setRole (g : Gateway) (session : Nat) (role : SessionRole) : Gateway :=
  let changed : CoordinatorSession := { g.sessions session with role }
  { g with sessions := Function.update g.sessions session changed }

/-- The handler continues once the microtasks before it are done. -/
def decided (g : Gateway) (frame : OpsFrame) (allowed : Bool) : Gateway :=
  { g with microtasks := g.microtasks ++ [(frame, allowed)] }

/-- A cache miss: a lookup of its own, or the role that the session already has. -/
def miss (g : Gateway) (frame : OpsFrame) (now : Nat) : Gateway :=
  if g.lookupRole then { g with lookups := g.lookups ++ [(frame, now)] }
  else
    let allowed := decide ((g.sessions frame.session).role ≠ .VIEWER)
    (g.cacheDecision frame.session allowed now).decided frame allowed

/-- `authorizeSession` up to its first suspension. -/
def authorizeSession (g : Gateway) (frame : OpsFrame) (now : Nat) : Gateway :=
  match g.authDecisionCache frame.session with
  | some cached =>
      if cached.expiresAt > now then g.decided frame cached.allowed else g.miss frame now
  | none => g.miss frame now

/-- The checks after the authorization: the replica id of the first operation, and the rate limit. -/
def passes (g : Gateway) (frame : OpsFrame) (allowed rateLimited : Bool) : Bool :=
  allowed && (match frame.ops with
    | op :: _ => decide (op.id.r = (g.sessions frame.session).replicaId)
    | [] => false) && !rateLimited

def step (g : Gateway) : GatewayEvent → Except String Gateway
  | .arrive session ops nowMs circuitBreakerTripped =>
      let frame : OpsFrame := ⟨g.arrived.length, session, ops⟩
      let g := { g with arrived := g.arrived ++ [frame] }
      -- an empty message is ignored, and a tripped breaker refuses everything
      if ops = [] ∨ circuitBreakerTripped then .ok g
      else .ok (authorizeSession { g with waiting := g.waiting ++ [frame] } frame nowMs)
  | .roleFound frame role =>
      match g.lookups.find? fun l => l.1 = frame with
      | none => .error "no such lookup"
      | some (_, now) =>
          let allowed := decide (role = some .editor) || decide (role = some .owner)
          let sessionRole := (role.map documentRoleToSessionRole).getD .VIEWER
          let g := { g with lookups := g.lookups.eraseP fun l => l.1 = frame }
          let g := (g.setRole frame.session sessionRole).cacheDecision frame.session allowed now
          .ok (g.decided frame allowed)
  | .lookupFailed frame =>
      -- the handler ends with the exception, which is logged
      if g.lookups.any fun l => l.1 = frame then
        .ok { g with
          lookups := g.lookups.eraseP fun l => l.1 = frame
          waiting := g.waiting.erase frame }
      else .error "no such lookup"
  | .resume rateLimited nowMs =>
      match g.microtasks with
      | [] => .error "no handler is ready"
      | (frame, allowed) :: microtasks =>
          let g := { g with microtasks, waiting := g.waiting.erase frame }
          if g.passes frame allowed rateLimited then do
            let (coordinator, relays) ←
              processIncomingOperation g.coordinator frame.session frame.ops nowMs
            .ok { g with
              coordinator
              handed := g.handed ++ [frame]
              relayed := g.relayed ++ relays }
          else .ok g
  | .setSessionRoleLive session role =>
      .ok { g.setRole session role with
        authDecisionCache := Function.update g.authDecisionCache session none }

end Gateway

end ConfluenceEditor
