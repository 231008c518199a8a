/-
The send queues of one connection.

There is a queue for each channel, and a frame is taken from the first one that is not empty. While a
frame is being written the next one waits. Under backpressure a presence frame drives out the newest
one that still waits; the queues of the other channels only grow.
-/

import Mathlib.Data.List.Basic
import Mathlib.Tactic.Common

namespace ConfluenceEditor

/-- A frame on its channel. The queues do not look inside. -/
inductive QueuedFrame (α β : Type) where
  | ops (frame : β)
  | control (frame : β)
  | presence (frame : α)
  deriving DecidableEq, Repr

structure ConnectionSendQueues (α β : Type) where
  opsQueue : List β
  controlQueue : List β
  presenceQueue : List α
  draining : Bool
  closed : Bool
  deriving DecidableEq, Repr

namespace ConnectionSendQueues

variable {α β : Type}

def new : ConnectionSendQueues α β := ⟨[], [], [], false, false⟩

def shedForBackpressure (queue : List α) : List α := queue.dropLast

/-- Stops draining: frames that come later are ignored. -/
def close (q : ConnectionSendQueues α β) : ConnectionSendQueues α β := { q with closed := true }

def nextFrame (q : ConnectionSendQueues α β) :
    Option (QueuedFrame α β × ConnectionSendQueues α β) :=
  match q.opsQueue, q.controlQueue, q.presenceQueue with
  | frame :: rest, _, _ => some (.ops frame, { q with opsQueue := rest })
  | [], frame :: rest, _ => some (.control frame, { q with controlQueue := rest })
  | [], [], frame :: rest => some (.presence frame, { q with presenceQueue := rest })
  | [], [], [] => none

/-- One turn of the loop in `pump`: the frame that is handed to the transport, if there is one. -/
def drain (q : ConnectionSendQueues α β) : ConnectionSendQueues α β × Option (QueuedFrame α β) :=
  match q.nextFrame with
  | none => ({ q with draining := false }, none)
  | some (frame, rest) => ({ rest with draining := true }, some frame)

def pump (q : ConnectionSendQueues α β) : ConnectionSendQueues α β × Option (QueuedFrame α β) :=
  if q.draining || q.closed then (q, none) else q.drain

def enqueue (q : ConnectionSendQueues α β) (frame : QueuedFrame α β) (isBackpressured : Bool) :
    ConnectionSendQueues α β × Option (QueuedFrame α β) :=
  if q.closed then (q, none)
  else
    match frame with
    | .ops frame => { q with opsQueue := q.opsQueue ++ [frame] }.pump
    | .control frame => { q with controlQueue := q.controlQueue ++ [frame] }.pump
    | .presence frame =>
        let waiting := if isBackpressured then shedForBackpressure q.presenceQueue else q.presenceQueue
        { q with presenceQueue := waiting ++ [frame] }.pump

/-- The write of the frame that was handed over is done, or has failed. -/
def sendSettled (q : ConnectionSendQueues α β) (succeeded : Bool) :
    ConnectionSendQueues α β × Option (QueuedFrame α β) :=
  if succeeded then q.drain else ({ q with closed := true, draining := false }, none)

/-! ### Presence frames are handed over in order -/

/-- The presence frame, as a list of one or none. -/
def presenceOf : Option (QueuedFrame α β) → List α
  | some (.presence frame) => [frame]
  | _ => []

variable {q : ConnectionSendQueues α β}

theorem drain_presence : presenceOf q.drain.2 ++ q.drain.1.presenceQueue = q.presenceQueue := by
  unfold drain nextFrame
  cases ops : q.opsQueue with
  | cons frame rest => rfl
  | nil =>
      cases control : q.controlQueue with
      | cons frame rest => rfl
      | nil =>
          cases presence : q.presenceQueue with
          | cons frame rest => rfl
          | nil => rfl

theorem drain_closed : q.drain.1.closed = q.closed := by
  unfold drain nextFrame
  cases q.opsQueue with
  | cons frame rest => rfl
  | nil =>
      cases q.controlQueue with
      | cons frame rest => rfl
      | nil =>
          cases q.presenceQueue with
          | cons frame rest => rfl
          | nil => rfl

theorem pump_presence : presenceOf q.pump.2 ++ q.pump.1.presenceQueue = q.presenceQueue := by
  unfold pump
  split_ifs with busy
  · rfl
  · exact drain_presence

theorem pump_closed : q.pump.1.closed = q.closed := by
  unfold pump
  split_ifs with busy
  · rfl
  · exact drain_closed

/-- A presence frame goes behind the others, the newest of which is shed under backpressure. -/
theorem enqueue_presence (frame : α) (isBackpressured : Bool) (alive : q.closed = false) :
    presenceOf (q.enqueue (.presence frame) isBackpressured).2 ++
        (q.enqueue (.presence frame) isBackpressured).1.presenceQueue =
      (if isBackpressured then shedForBackpressure q.presenceQueue else q.presenceQueue) ++ [frame] := by
  unfold enqueue
  rw [alive]
  exact pump_presence

/-- The frames of the other channels leave the presence queue alone. -/
theorem enqueue_other {frame : QueuedFrame α β} {isBackpressured : Bool}
    (other : presenceOf (some frame) = []) :
    presenceOf (q.enqueue frame isBackpressured).2 ++
        (q.enqueue frame isBackpressured).1.presenceQueue = q.presenceQueue := by
  unfold enqueue
  cases q.closed with
  | true => rfl
  | false =>
      cases frame with
      | ops frame => exact pump_presence
      | control frame => exact pump_presence
      | presence frame => cases other

theorem enqueue_closed {frame : QueuedFrame α β} {isBackpressured : Bool} :
    (q.enqueue frame isBackpressured).1.closed = q.closed := by
  unfold enqueue
  cases dead : q.closed with
  | true => exact dead
  | false =>
      cases frame with
      | ops frame => exact pump_closed
      | control frame => exact pump_closed
      | presence frame => exact pump_closed

end ConnectionSendQueues

end ConfluenceEditor
