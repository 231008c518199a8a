/-
What the send queues of a connection hand to the socket, over whole runs.

Frames are enqueued and writes settle in any order, and the connection may be closed at any moment.
Beside the queues the machine keeps three logs: the frames that were enqueued, the frames that were
handed over, and the writes that have not settled. A frame of the OPS or the CONTROL queue is in the
log of what was handed over or still waits, in the order in which it came; one write at most is under
way, and while something waits on an open connection there is one.
-/

import ConfluenceEditor.Library.Run
import ConfluenceEditor.Server.SendQueues
import Mathlib.Data.List.Basic

namespace ConfluenceEditor

open Run

variable {α β : Type}

namespace QueuedFrame

def opsOf : QueuedFrame α β → List β
  | .ops frame => [frame]
  | _ => []

def controlOf : QueuedFrame α β → List β
  | .control frame => [frame]
  | _ => []

end QueuedFrame

open QueuedFrame

namespace ConnectionSendQueues

/-- No frame of a class above that of `frame` waits. -/
def HigherEmpty (q : ConnectionSendQueues α β) : QueuedFrame α β → Prop
  | .ops _ => True
  | .control _ => q.opsQueue = []
  | .presence _ => q.opsQueue = [] ∧ q.controlQueue = []

def waiting (q : ConnectionSendQueues α β) : Nat :=
  q.opsQueue.length + q.controlQueue.length + q.presenceQueue.length

/-- What one turn of the loop does to `q`: it takes `frame` and leaves `rest`. -/
structure Takes (q : ConnectionSendQueues α β) (frame : QueuedFrame α β)
    (rest : ConnectionSendQueues α β) : Prop where
  ops : opsOf frame ++ rest.opsQueue = q.opsQueue
  control : controlOf frame ++ rest.controlQueue = q.controlQueue
  presence : presenceOf (some frame) ++ rest.presenceQueue = q.presenceQueue
  higher : rest.HigherEmpty frame
  one : rest.waiting + 1 = q.waiting
  closed : rest.closed = q.closed
  draining : rest.draining = true

/-- The loop ends when nothing waits, and otherwise takes one frame. -/
theorem drain_cases (q : ConnectionSendQueues α β) :
    (q.waiting = 0 ∧ q.drain = ({ q with draining := false }, none)) ∨
      ∃ frame rest, q.drain = (rest, some frame) ∧ q.Takes frame rest := by
  obtain ⟨opsQueue, controlQueue, presenceQueue, draining, closed⟩ := q
  cases opsQueue with
  | cons frame opsQueue =>
      refine Or.inr ⟨.ops frame, ⟨opsQueue, controlQueue, presenceQueue, true, closed⟩, rfl, ?_⟩
      refine ⟨rfl, rfl, rfl, trivial, ?_, rfl, rfl⟩
      simp only [waiting, List.length_cons]
      omega
  | nil =>
      cases controlQueue with
      | cons frame controlQueue =>
          refine Or.inr ⟨.control frame, ⟨[], controlQueue, presenceQueue, true, closed⟩, rfl, ?_⟩
          refine ⟨rfl, rfl, rfl, rfl, ?_, rfl, rfl⟩
          simp only [waiting, List.length_cons]
          omega
      | nil =>
          cases presenceQueue with
          | cons frame presenceQueue =>
              refine Or.inr ⟨.presence frame, ⟨[], [], presenceQueue, true, closed⟩, rfl, ?_⟩
              exact ⟨rfl, rfl, rfl, ⟨rfl, rfl⟩, rfl, rfl, rfl⟩
          | nil => exact Or.inl ⟨rfl, rfl⟩

/-- The queue of its class with the frame behind, before `pump` is called. -/
def push (q : ConnectionSendQueues α β) (frame : QueuedFrame α β) (isBackpressured : Bool) :
    ConnectionSendQueues α β :=
  match frame with
  | .ops frame => { q with opsQueue := q.opsQueue ++ [frame] }
  | .control frame => { q with controlQueue := q.controlQueue ++ [frame] }
  | .presence frame =>
      let waiting := if isBackpressured then shedForBackpressure q.presenceQueue else q.presenceQueue
      { q with presenceQueue := waiting ++ [frame] }

/-- Stopped queues take no frame. -/
theorem enqueue_stopped (q : ConnectionSendQueues α β) (frame : QueuedFrame α β)
    (isBackpressured : Bool) (stopped : q.closed = true) :
    q.enqueue frame isBackpressured = (q, none) := by
  unfold enqueue
  rw [if_pos stopped]

theorem enqueue_eq (q : ConnectionSendQueues α β) (frame : QueuedFrame α β)
    (isBackpressured : Bool) (alive : q.closed = false) :
    q.enqueue frame isBackpressured = (q.push frame isBackpressured).pump := by
  unfold enqueue
  rw [if_neg (by simp [alive])]
  cases frame <;> rfl

variable {q : ConnectionSendQueues α β} {frame : QueuedFrame α β} {isBackpressured : Bool}

@[simp] theorem push_ops :
    (q.push frame isBackpressured).opsQueue = q.opsQueue ++ opsOf frame := by
  cases frame <;> simp [push, opsOf]

@[simp] theorem push_control :
    (q.push frame isBackpressured).controlQueue = q.controlQueue ++ controlOf frame := by
  cases frame <;> simp [push, controlOf]

@[simp] theorem push_draining : (q.push frame isBackpressured).draining = q.draining := by
  cases frame <;> rfl

@[simp] theorem push_closed : (q.push frame isBackpressured).closed = q.closed := by
  cases frame <;> rfl

/-- Under backpressure a presence frame drives out another one, if there is one. -/
theorem push_presence_length (frame : α) :
    (q.push (.presence frame) true).presenceQueue.length ≤ max 1 q.presenceQueue.length := by
  change (q.presenceQueue.dropLast ++ [frame]).length ≤ _
  rw [List.length_append, List.length_dropLast, List.length_singleton]
  omega

end ConnectionSendQueues

/-! ### The machine -/

/-- The queues of a connection, the writes that have not settled, the frames handed over and the
frames enqueued. -/
structure Sending (α β : Type) where
  queues : ConnectionSendQueues α β
  outstanding : List (QueuedFrame α β)
  handed : List (QueuedFrame α β)
  enqueued : List (QueuedFrame α β)
  deriving DecidableEq, Repr

inductive SendEvent (α β : Type) where
  | enqueue (frame : QueuedFrame α β) (isBackpressured : Bool)
  /-- One of the outstanding writes is done, or has failed. -/
  | settled (index : Nat) (succeeded : Bool)
  | close
  deriving DecidableEq, Repr

namespace Sending

def new : Sending α β := ⟨.new, [], [], []⟩

/-- The queues after a call, and the frame it has handed over. -/
def hand (s : Sending α β) (called : ConnectionSendQueues α β × Option (QueuedFrame α β)) :
    Sending α β :=
  { s with
    queues := called.1
    outstanding := s.outstanding ++ called.2.toList
    handed := s.handed ++ called.2.toList }

def step (s : Sending α β) : SendEvent α β → Except Unit (Sending α β)
  | .enqueue frame isBackpressured =>
      .ok ({ s with enqueued := s.enqueued ++ [frame] }.hand
        (s.queues.enqueue frame isBackpressured))
  | .settled index succeeded =>
      if index < s.outstanding.length then
        .ok ({ s with outstanding := s.outstanding.eraseIdx index }.hand
          (s.queues.sendSettled succeeded))
      else .error ()
  | .close => .ok { s with queues := s.queues.close }

/-- The invariant: a write is under way exactly while the loop runs; and on an open connection
nothing waits unless it runs, and what was enqueued is what was handed over and what waits. -/
structure Faithful (s : Sending α β) : Prop where
  busy : s.outstanding.length = if s.queues.draining then 1 else 0
  ops : s.queues.closed = false →
    s.handed.flatMap opsOf ++ s.queues.opsQueue = s.enqueued.flatMap opsOf
  control : s.queues.closed = false →
    s.handed.flatMap controlOf ++ s.queues.controlQueue = s.enqueued.flatMap controlOf
  idle : s.queues.closed = false → s.queues.draining = false → s.queues.waiting = 0

theorem Faithful.outstanding_le {s : Sending α β} (faithful : s.Faithful) :
    s.outstanding.length ≤ 1 := by
  rw [faithful.busy]
  split_ifs with draining <;> omega

/-- A turn of the loop, when no write is under way, makes the state faithful again. -/
theorem Faithful.drain {s : Sending α β} (free : s.outstanding = [])
    (ops : s.queues.closed = false →
      s.handed.flatMap opsOf ++ s.queues.opsQueue = s.enqueued.flatMap opsOf)
    (control : s.queues.closed = false →
      s.handed.flatMap controlOf ++ s.queues.controlQueue = s.enqueued.flatMap controlOf) :
    (s.hand s.queues.drain).Faithful := by
  rcases s.queues.drain_cases with ⟨empty, drained⟩ | ⟨frame, rest, drained, takes⟩
  · rw [drained]
    refine ⟨?_, ?_, ?_, fun _ _ => empty⟩
    · simp [hand, free]
    · simpa [hand] using ops
    · simpa [hand] using control
  · rw [drained]
    refine ⟨?_, ?_, ?_, ?_⟩
    · simp [hand, free, takes.draining]
    · intro alive
      have before := ops (takes.closed.symm.trans alive)
      rw [← takes.ops] at before
      simpa [hand] using before
    · intro alive
      have before := control (takes.closed.symm.trans alive)
      rw [← takes.control] at before
      simpa [hand] using before
    · intro _ still
      have going : rest.draining = false := still
      rw [takes.draining] at going
      cases going

theorem faithful_new : (new : Sending α β).Faithful :=
  ⟨rfl, fun _ => rfl, fun _ => rfl, fun _ _ => rfl⟩

theorem hand_none (s : Sending α β) (queues : ConnectionSendQueues α β) :
    s.hand (queues, none) = { s with queues } := by
  simp [hand]

/-- Every event keeps the invariant. -/
theorem Faithful.kept {s s' : Sending α β} {event : SendEvent α β} (faithful : s.Faithful)
    (stepped : s.step event = .ok s') : s'.Faithful := by
  cases event with
  | enqueue frame isBackpressured =>
      obtain rfl := Except.ok.inj stepped
      cases alive : s.queues.closed with
      | true =>
          rw [ConnectionSendQueues.enqueue_stopped _ _ _ alive, hand_none]
          refine ⟨faithful.busy, ?_, ?_, ?_⟩ <;>
          · intro opened
            rw [alive] at opened
            cases opened
      | false =>
          rw [ConnectionSendQueues.enqueue_eq _ _ _ alive]
          -- The log and the queue of its class grow by the frame before the loop is looked at.
          let pushed : Sending α β :=
            { s with
              queues := s.queues.push frame isBackpressured
              enqueued := s.enqueued ++ [frame] }
          have ops : pushed.handed.flatMap opsOf ++ pushed.queues.opsQueue =
              pushed.enqueued.flatMap opsOf := by
            have before := faithful.ops alive
            simp only [pushed, ConnectionSendQueues.push_ops, List.flatMap_append,
              List.flatMap_singleton, ← before, List.append_assoc]
          have control : pushed.handed.flatMap controlOf ++ pushed.queues.controlQueue =
              pushed.enqueued.flatMap controlOf := by
            have before := faithful.control alive
            simp only [pushed, ConnectionSendQueues.push_control, List.flatMap_append,
              List.flatMap_singleton, ← before, List.append_assoc]
          have busy := faithful.busy
          cases running : s.queues.draining with
          | true =>
              have held : (s.queues.push frame isBackpressured).pump =
                  (s.queues.push frame isBackpressured, none) := by
                simp [ConnectionSendQueues.pump, running]
              rw [held, hand_none]
              refine ⟨?_, fun _ => ops, fun _ => control, ?_⟩
              · simpa using busy
              · intro _ still
                have going : (s.queues.push frame isBackpressured).draining = false := still
                rw [ConnectionSendQueues.push_draining, running] at going
                cases going
          | false =>
              have started : (s.queues.push frame isBackpressured).pump =
                  (s.queues.push frame isBackpressured).drain := by
                simp [ConnectionSendQueues.pump, running, alive]
              rw [started]
              have free : pushed.outstanding = [] := by
                rw [running] at busy
                exact List.length_eq_zero_iff.mp busy
              exact Faithful.drain free (fun _ => ops) (fun _ => control)
  | settled index succeeded =>
      unfold Sending.step at stepped
      dsimp only at stepped
      split_ifs at stepped with bound
      obtain rfl := Except.ok.inj stepped
      have short := faithful.outstanding_le
      have free : s.outstanding.eraseIdx index = [] := by
        apply List.length_eq_zero_iff.mp
        rw [List.length_eraseIdx_of_lt bound]
        omega
      cases succeeded with
      | true => exact Faithful.drain free faithful.ops faithful.control
      | false =>
          have failed : s.queues.sendSettled false =
              ({ s.queues with closed := true, draining := false }, none) := rfl
          rw [failed, hand_none, free]
          refine ⟨rfl, ?_, ?_, ?_⟩ <;>
          · intro opened
            cases opened
  | close =>
      obtain rfl := Except.ok.inj stepped
      refine ⟨faithful.busy, ?_, ?_, ?_⟩ <;>
      · intro opened
        cases opened

theorem Faithful.of_reaches {s : Sending α β} (reached : Reaches step new s) : s.Faithful :=
  reached.invariant faithful_new fun _ _ _ faithful stepped => faithful.kept stepped

/-! ### One step -/

/-- A step hands over one frame at most, from the first queue that is not empty, and a presence
frame that comes under backpressure does not lengthen its queue. -/
structure Orderly (s : Sending α β) (event : SendEvent α β) (s' : Sending α β) : Prop where
  one : s'.handed = s.handed ∨
    ∃ frame, s'.handed = s.handed ++ [frame] ∧ s'.queues.HigherEmpty frame
  presence : ∀ frame, event = .enqueue (.presence frame) true →
    s'.queues.presenceQueue.length ≤ max 1 s.queues.presenceQueue.length

/-- The frames that a call hands over, and what it leaves of the presence queue. -/
theorem hand_drain (s : Sending α β) (queues : ConnectionSendQueues α β) :
    ((s.hand queues.drain).handed = s.handed ∨
      ∃ frame, (s.hand queues.drain).handed = s.handed ++ [frame] ∧
        (s.hand queues.drain).queues.HigherEmpty frame) ∧
    (s.hand queues.drain).queues.presenceQueue.length ≤ queues.presenceQueue.length := by
  rcases queues.drain_cases with ⟨_, drained⟩ | ⟨frame, rest, drained, takes⟩
  · rw [drained, hand_none]
    exact ⟨Or.inl rfl, Nat.le_refl _⟩
  · rw [drained]
    refine ⟨Or.inr ⟨frame, rfl, takes.higher⟩, ?_⟩
    rw [← takes.presence, List.length_append]
    exact Nat.le_add_left _ _

theorem hand_pump (s : Sending α β) (queues : ConnectionSendQueues α β) :
    ((s.hand queues.pump).handed = s.handed ∨
      ∃ frame, (s.hand queues.pump).handed = s.handed ++ [frame] ∧
        (s.hand queues.pump).queues.HigherEmpty frame) ∧
    (s.hand queues.pump).queues.presenceQueue.length ≤ queues.presenceQueue.length := by
  unfold ConnectionSendQueues.pump
  split_ifs with busy
  · rw [hand_none]
    exact ⟨Or.inl rfl, Nat.le_refl _⟩
  · exact hand_drain s queues

theorem orderly_step {s s' : Sending α β} {event : SendEvent α β}
    (stepped : s.step event = .ok s') : Orderly s event s' := by
  cases event with
  | enqueue frame isBackpressured =>
      obtain rfl := Except.ok.inj stepped
      cases alive : s.queues.closed with
      | true =>
          rw [ConnectionSendQueues.enqueue_stopped _ _ _ alive, hand_none]
          exact ⟨Or.inl rfl, fun _ _ => Nat.le_max_right _ _⟩
      | false =>
          rw [ConnectionSendQueues.enqueue_eq _ _ _ alive]
          obtain ⟨one, shorter⟩ := hand_pump { s with enqueued := s.enqueued ++ [frame] }
            (s.queues.push frame isBackpressured)
          refine ⟨one, fun presence same => ?_⟩
          cases same
          exact Nat.le_trans shorter (ConnectionSendQueues.push_presence_length presence)
  | settled index succeeded =>
      unfold Sending.step at stepped
      dsimp only at stepped
      split_ifs at stepped with bound
      obtain rfl := Except.ok.inj stepped
      cases succeeded with
      | true => exact ⟨(hand_drain _ s.queues).1, fun _ same => by cases same⟩
      | false =>
          have failed : s.queues.sendSettled false =
              ({ s.queues with closed := true, draining := false }, none) := rfl
          rw [failed, hand_none]
          exact ⟨Or.inl rfl, fun _ same => by cases same⟩
  | close =>
      obtain rfl := Except.ok.inj stepped
      exact ⟨Or.inl rfl, fun _ same => by cases same⟩

/-! ### Writes that go through empty the queues -/

/-- As long as the writes go through, everything that waits on an open connection is handed over. -/
theorem Faithful.flushes {s : Sending α β} (faithful : s.Faithful)
    (alive : s.queues.closed = false) :
    ∃ writes s', run step s (List.replicate writes (.settled 0 true)) = .ok s' ∧
      s'.queues.waiting = 0 ∧ s'.outstanding = [] ∧ s'.queues.closed = false ∧
      s'.enqueued = s.enqueued := by
  generalize many : s.queues.waiting = count
  induction count generalizing s with
  | zero =>
      cases running : s.queues.draining with
      | false =>
          have busy := faithful.busy
          rw [running] at busy
          exact ⟨0, s, rfl, many, List.length_eq_zero_iff.mp busy, alive, rfl⟩
      | true =>
          have busy := faithful.busy
          rw [running, if_pos rfl] at busy
          obtain ⟨frame, single⟩ := List.length_eq_one_iff.mp busy
          rcases s.queues.drain_cases with ⟨empty, drained⟩ | ⟨frame, rest, drained, takes⟩
          · refine ⟨1, { s with queues := { s.queues with draining := false }, outstanding := [] },
              ?_, empty, rfl, alive, rfl⟩
            simp [run, step, single, ConnectionSendQueues.sendSettled, drained, hand]
          · have left := takes.one
            omega
  | succ count ih =>
      have running : s.queues.draining = true := by
        cases running : s.queues.draining with
        | true => rfl
        | false =>
            have none := faithful.idle alive running
            omega
      have busy := faithful.busy
      rw [running, if_pos rfl] at busy
      rcases s.queues.drain_cases with ⟨empty, drained⟩ | ⟨frame, rest, drained, takes⟩
      · omega
      · -- One write settles and the next frame is handed over.
        have stepped : s.step (.settled 0 true) =
            .ok ({ s with outstanding := s.outstanding.eraseIdx 0 }.hand (rest, some frame)) := by
          unfold step
          dsimp only
          rw [if_pos (by omega), ← drained]
          rfl
        have left : rest.waiting = count := by
          have one := takes.one
          omega
        obtain ⟨writes, s', ran, empty, free, opened, same⟩ :=
          ih (faithful.kept stepped) (takes.closed.trans alive) left
        refine ⟨writes + 1, s', ?_, empty, free, opened, same⟩
        rw [List.replicate_succ]
        simp only [run, stepped]
        exact ran

/-! ### The queues neither lose nor reorder -/

/-- In every state of every run, as long as the connection is open: what was handed over and what
waits of a class is what was enqueued of it, in order; one write at most is outstanding; every
step is orderly; and once the writes go through everything has been handed over. -/
theorem sends_in_order {s : Sending α β} (reached : Reaches step new s) :
    s.outstanding.length ≤ 1 ∧
    (∀ event s', s.step event = .ok s' → Orderly s event s') ∧
    (s.queues.closed = false →
      s.handed.flatMap opsOf ++ s.queues.opsQueue = s.enqueued.flatMap opsOf ∧
      s.handed.flatMap controlOf ++ s.queues.controlQueue = s.enqueued.flatMap controlOf ∧
      (s.queues.waiting = 0 ∨ s.outstanding ≠ []) ∧
      ∃ writes s', run step s (List.replicate writes (.settled 0 true)) = .ok s' ∧
        s'.handed.flatMap opsOf = s.enqueued.flatMap opsOf ∧
        s'.handed.flatMap controlOf = s.enqueued.flatMap controlOf) := by
  have faithful := Faithful.of_reaches reached
  refine ⟨faithful.outstanding_le, fun event s' stepped => orderly_step stepped, fun alive => ?_⟩
  refine ⟨faithful.ops alive, faithful.control alive, ?_, ?_⟩
  · by_cases running : s.queues.draining = true
    · refine Or.inr fun free => ?_
      have busy := faithful.busy
      rw [running, free] at busy
      cases busy
    · exact Or.inl (faithful.idle alive (by simpa using running))
  · obtain ⟨writes, s', ran, empty, -, opened, same⟩ := faithful.flushes alive
    have after := Faithful.of_reaches (reached.trans ⟨_, ran⟩)
    unfold ConnectionSendQueues.waiting at empty
    have opsEmpty : s'.queues.opsQueue = [] := List.length_eq_zero_iff.mp (by omega)
    have controlEmpty : s'.queues.controlQueue = [] := List.length_eq_zero_iff.mp (by omega)
    refine ⟨writes, s', ran, ?_, ?_⟩
    · have all := after.ops opened
      rwa [opsEmpty, List.append_nil, same] at all
    · have all := after.control opened
      rwa [controlEmpty, List.append_nil, same] at all

/-- A frame of each class, the operation coming last. -/
def mixedRun : List (SendEvent Nat Nat) :=
  [.enqueue (.control 1) false, .enqueue (.presence 2) false, .enqueue (.ops 3) false,
    .settled 0 true]

/-- The operation goes out before the presence frame that came first. -/
theorem sends_in_order_mixed :
    ∃ s, run step new mixedRun = .ok s ∧ s.outstanding.length ≤ 1 ∧
      s.handed.flatMap opsOf ++ s.queues.opsQueue = [3] ∧ s.handed = [.control 1, .ops 3] :=
  ⟨⟨⟨[], [], [2], true, false⟩, [.ops 3], [.control 1, .ops 3],
      [.control 1, .presence 2, .ops 3]⟩, rfl, (sends_in_order ⟨mixedRun, rfl⟩).1,
    ((sends_in_order ⟨mixedRun, rfl⟩).2.2 rfl).1, rfl⟩

end Sending

end ConfluenceEditor
