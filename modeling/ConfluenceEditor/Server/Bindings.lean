/-
What a step of the gateway does to one connection.

A connection's HELLO begins a handler and a handler admits a session, so no step but a frame that
comes in adds to the handlers, or to the sessions together with the handlers that may still admit one.
Such a step leaves the binding in place and never closes the connection as malformed.
-/

import ConfluenceEditor.Server.Connections

namespace ConfluenceEditor

/-- The handlers that may still admit a session. -/
def WsConnection.waiting (c : WsConnection) : Nat := c.handlers.countP fun h => h.stage ≠ .admitted

/-- No handler comes in addition, each admission has used up a handler, and a binding lasts. -/
structure WsConnection.Spends (c c' : WsConnection) : Prop where
  handlers : c'.handlers.length ≤ c.handlers.length
  admissions : c'.admissions + c'.waiting ≤ c.admissions + c.waiting
  bound : c.bound ≠ none → c'.bound ≠ none
  malformed : c'.malformed = c.malformed

theorem WsConnection.Spends.refl (c : WsConnection) : c.Spends c := ⟨le_rfl, le_rfl, id, rfl⟩

namespace WsGateway

open WsConnection

variable {g g' : WsGateway} {c c' : WsConnection} {h : HelloHandler} {k i : Nat}

/-- One connection is replaced. -/
theorem Spends.setConnection (spends : (g.connections k).Spends c) (j : Nat) :
    (g.connections j).Spends ((g.setConnection k c).connections j) := by
  show (g.connections j).Spends (Function.update g.connections k c j)
  by_cases same : j = k
  · subst same
    rw [Function.update_self]
    exact spends
  · rw [Function.update_of_ne same]
    exact Spends.refl _

theorem Spends.readyState (c : WsConnection) (readyState : ReadyState) :
    c.Spends { c with readyState } := ⟨le_rfl, le_rfl, id, rfl⟩

theorem Spends.endHandler (spends : c.Spends c') : c.Spends (endHandler c' i) where
  handlers := (List.eraseIdx_sublist _ _).length_le.trans spends.handlers
  admissions := by
    have fewer : (WsGateway.endHandler c' i).waiting ≤ c'.waiting :=
      (List.eraseIdx_sublist _ _).countP_le
    exact (Nat.add_le_add_left fewer _).trans spends.admissions
  bound := spends.bound
  malformed := spends.malformed

/-- The handler goes on: it may admit a session afterwards if it might before. -/
theorem waiting_setStage (here : c.handlers[i]? = some h) (waits : h.stage ≠ .admitted)
    (stage : AdmissionStage) : (setStage c i h stage).waiting + 1 =
      c.waiting + (decide (stage ≠ .admitted)).toNat := by
  obtain ⟨inside, rfl⟩ := List.getElem?_eq_some_iff.mp here
  have counted : 0 < c.waiting := List.countP_pos_iff.mpr
    ⟨c.handlers[i], List.getElem_mem inside, decide_eq_true waits⟩
  have replaced : (WsGateway.setStage c i c.handlers[i] stage).waiting =
      c.waiting - 1 + (decide (stage ≠ .admitted)).toNat := by
    unfold waiting WsGateway.setStage
    rw [List.countP_set inside, if_pos (decide_eq_true waits)]
    congr 1
    cases stage <;> rfl
  omega

theorem Spends.setStage (here : c.handlers[i]? = some h) (waits : h.stage ≠ .admitted)
    (stage : AdmissionStage) : c.Spends (setStage c i h stage) where
  handlers := le_of_eq List.length_set
  admissions := by
    have counted := waiting_setStage here waits stage
    have one := Bool.toNat_le (decide (stage ≠ .admitted))
    show c.admissions + _ ≤ _
    omega
  bound := id
  malformed := rfl

/-- The handler's session is joined to its connection. -/
theorem Spends.admitSession (here : (g.connections k).handlers[i]? = some h)
    (waits : h.stage ≠ .admitted) (replicaId : Nat) (role : SessionRole) (j : Nat) :
    (g.connections j).Spends
      (((g.setConnection k (WsGateway.setStage (g.connections k) i h .admitted)).admitSession k h
        replicaId role).connections j) := by
  have joined : ((g.setConnection k (WsGateway.setStage (g.connections k) i h .admitted)).admitSession
      k h replicaId role).connections = Function.update g.connections k
        { WsGateway.setStage (g.connections k) i h .admitted with
          bound := some h.documentId, admissions := (g.connections k).admissions + 1 } := by
    unfold WsGateway.admitSession WsGateway.setConnection setDocument
    simp only [Function.update_self, Function.update_idem]
    rfl
  have spends : (g.connections k).Spends { WsGateway.setStage (g.connections k) i h .admitted with
      bound := some h.documentId, admissions := (g.connections k).admissions + 1 } := by
    refine ⟨le_of_eq List.length_set, ?_, fun _ => nofun, rfl⟩
    have counted := waiting_setStage here waits .admitted
    rw [show (decide (AdmissionStage.admitted ≠ .admitted)).toNat = 0 from rfl] at counted
    show (g.connections k).admissions + 1 +
      (WsGateway.setStage (g.connections k) i h .admitted).waiting ≤ _
    omega
  rw [joined]
  exact Spends.setConnection spends j

theorem Spends.warmStarted (here : (g.connections k).handlers[i]? = some h)
    (waits : h.stage ≠ .admitted) (succeeded : Bool) (role : SessionRole) (j : Nat) :
    (g.connections j).Spends ((g.warmStarted k i h succeeded role).connections j) := by
  unfold WsGateway.warmStarted
  dsimp only
  split_ifs with failed fresh gone auth
  · exact Spends.setConnection (Spends.endHandler (Spends.readyState _ _)) j
  · exact Spends.setConnection (Spends.endHandler (Spends.refl _)) j
  · exact Spends.setConnection (Spends.endHandler (Spends.refl _)) j
  · exact Spends.setConnection (g := g.setDocument _ _) (Spends.setStage here waits _) j
  · exact Spends.admitSession (g := g.setDocument _ _) here waits _ _ j

/-- The event is not a frame that comes in. -/
def silent : WsEvent → Bool
  | .message _ _ => false
  | _ => true

/-- Only a frame can close a connection as malformed or begin a handler. -/
theorem spends_step {e : WsEvent} (moved : g.step e = .ok g') (quiet : silent e = true) (j : Nat) :
    (g.connections j).Spends (g'.connections j) := by
  cases e with
  | message k frame => cases quiet
  | warmStarted k i succeeded role =>
      obtain ⟨h, found, went⟩ := Throwing.ok_of_bind moved
      split_ifs at went with waits
      obtain rfl := Except.ok.inj went
      have early : h.stage ≠ .admitted := by
        rw [waits]
        nofun
      exact Spends.warmStarted (handlerAt_ok.mp found) early succeeded role j
  | roleFound k i role =>
      obtain ⟨h, replicaId, found, stage, rfl⟩ := roleFound_ok moved
      have early : h.stage ≠ .admitted := by
        rw [stage]
        nofun
      cases role with
      | none => exact Spends.setConnection (Spends.endHandler (Spends.refl _)) j
      | some role => exact Spends.admitSession found early _ _ j
  | lookupFailed k i =>
      obtain rfl := lookupFailed_ok moved
      exact Spends.setConnection (Spends.endHandler (Spends.refl _)) j
  | finished k i =>
      obtain ⟨h, -, went⟩ := Throwing.ok_of_bind moved
      split_ifs at went
      obtain rfl := Except.ok.inj went
      exact Spends.setConnection (Spends.endHandler (Spends.refl _)) j
  | presenceStale k documentId =>
      obtain rfl := Except.ok.inj moved
      exact Spends.refl _
  | closing k =>
      obtain rfl := Except.ok.inj moved
      refine Spends.setConnection ?_ j
      split_ifs
      · exact Spends.readyState _ _
      · exact Spends.refl _
  | closed k =>
      simp only [step] at moved
      split_ifs at moved
      obtain rfl := Except.ok.inj moved
      have closed : ∀ j, (g.connections j).Spends
          ((g.setConnection k { g.connections k with readyState := .CLOSED }).connections j) :=
        Spends.setConnection (Spends.readyState _ _)
      unfold WsGateway.handleClose
      dsimp only
      split
      · exact closed j
      · exact closed j

/-! ### A frame that comes in -/

/-- It concerns the connection that it comes to. -/
theorem handleMessage_elsewhere {j : Nat} (other : j ≠ k) (frame : IncomingFrame) :
    (g.handleMessage k frame).connections j = g.connections j := by
  have replaced : ∀ c, (g.setConnection k c).connections j = g.connections j :=
    fun c => Function.update_of_ne other ..
  unfold handleMessage
  split
  · unfold handleHandshake
    split
    · dsimp only
      split_ifs
      · rfl
      · exact replaced _
    · exact replaced _
  · rfl
  · exact replaced _
  · rfl

/-- A frame that is not HELLO closes a connection that is not bound. -/
theorem handleMessage_other : (g.handleMessage k .other) =
    if (g.connections k).bound = none then g.setConnection k (closeMalformed (g.connections k))
    else g := by
  unfold handleMessage
  cases (g.connections k).bound <;> rfl

/-- HELLO begins a handler at most. -/
theorem handleMessage_hello (documentId userId displayName : String) (passes : Bool) :
    g.handleMessage k (.hello documentId userId displayName passes) = g ∨
      g.handleMessage k (.hello documentId userId displayName passes) =
        g.setConnection k { g.connections k with
          handlers := (g.connections k).handlers ++
            [⟨documentId, userId, displayName, .warmStart⟩] } := by
  unfold handleMessage
  cases (g.connections k).bound with
  | some bound => exact Or.inl rfl
  | none =>
      show (if _ then g else _) = g ∨ (if _ then g else _) = _
      split_ifs
      · exact Or.inl rfl
      · exact Or.inr rfl

end WsGateway

end ConfluenceEditor
