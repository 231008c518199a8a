/-
The client's presence updates, coalesced and capped.

`PresenceUpdateCoalescer` is the class of the source. `CoalescerRun` is the class in its environment:
a clock that does not go back, updates at any time, and a timer that fires at any time from its delay
on. The log of a run has every position that was given, sent or dropped. `coalescer_paces` says of
every run that the sends keep their distance and their rate, that the cap drops nothing, that a send
has the newest position, and that the last position is sent once the timer has fired.

Times are the milliseconds of `Date.now()`.
-/

import ConfluenceEditor.Library.Run
import Mathlib.Data.List.Induction

namespace ConfluenceEditor

def COALESCE_MS : Nat := 50
def MAX_UPDATES_PER_SECOND : Nat := 20
def HARD_CAP_WINDOW_MS : Nat := 1000

/-- The fields of the class. An armed timer is the time at which it was armed. -/
structure PresenceUpdateCoalescer (P : Type) where
  pendingPosition : Option P
  coalesceTimer : Option Nat
  sentAtMs : List Nat
  deriving DecidableEq, Repr

/-- What a flush did: it had no position, it dropped one because of the cap, or it sent one. -/
inductive Flushed (P : Type) where
  | nothing
  | dropped (position : P)
  | sent (position : P)
  deriving DecidableEq, Repr

namespace PresenceUpdateCoalescer

variable {P : Type}

def new : PresenceUpdateCoalescer P := ⟨none, none, []⟩

/-- The newest position replaces the pending one; an armed timer is not armed again. -/
def update (c : PresenceUpdateCoalescer P) (nowMs : Nat) (position : P) :
    PresenceUpdateCoalescer P :=
  let c := { c with pendingPosition := some position }
  if c.coalesceTimer.isSome then c else { c with coalesceTimer := some nowMs }

def flush (c : PresenceUpdateCoalescer P) (nowMs : Nat) : PresenceUpdateCoalescer P × Flushed P :=
  match c.pendingPosition with
  | none => ({ c with coalesceTimer := none, pendingPosition := none }, .nothing)
  | some position =>
      let sentAtMs := c.sentAtMs.dropWhile fun sentAt => nowMs - sentAt ≥ HARD_CAP_WINDOW_MS
      if sentAtMs.length ≥ MAX_UPDATES_PER_SECOND then (⟨none, none, sentAtMs⟩, .dropped position)
      else (⟨none, none, sentAtMs ++ [nowMs]⟩, .sent position)

end PresenceUpdateCoalescer

/-! ### Runs -/

/-- What the owner sees of a coalescer. -/
inductive CoalescerEntry (P : Type) where
  | given (position : P)
  | sent (nowMs : Nat) (position : P)
  | dropped (nowMs : Nat) (position : P)
  deriving DecidableEq, Repr

inductive CoalescerEvent (P : Type) where
  | update (nowMs : Nat) (position : P)
  | timer (nowMs : Nat)
  deriving DecidableEq, Repr

/-- A coalescer, the time of the last event, and what happened so far. -/
structure CoalescerRun (P : Type) where
  coalescer : PresenceUpdateCoalescer P
  nowMs : Nat
  log : List (CoalescerEntry P)
  deriving DecidableEq, Repr

namespace CoalescerRun

variable {P : Type}

def init : CoalescerRun P := ⟨.new, 0, []⟩

/-- The entry of a flush. -/
def entry (nowMs : Nat) : Flushed P → List (CoalescerEntry P)
  | .nothing => []
  | .dropped position => [.dropped nowMs position]
  | .sent position => [.sent nowMs position]

/-- The clock is monotone, and a timer does not fire before its delay. -/
def step (s : CoalescerRun P) : CoalescerEvent P → Except String (CoalescerRun P)
  | .update nowMs position =>
      if nowMs < s.nowMs then .error "the clock does not go back"
      else .ok ⟨s.coalescer.update nowMs position, nowMs, s.log ++ [.given position]⟩
  | .timer nowMs =>
      if nowMs < s.nowMs then .error "the clock does not go back"
      else match s.coalescer.coalesceTimer with
        | none => .error "no timer is armed"
        | some armedAt =>
            if nowMs < armedAt + COALESCE_MS then .error "a timer does not fire before its delay"
            else
              let (coalescer, flushed) := s.coalescer.flush nowMs
              .ok ⟨coalescer, nowMs, s.log ++ entry nowMs flushed⟩

/-- The positions that were given. -/
def updates (log : List (CoalescerEntry P)) : List P :=
  log.filterMap fun e => match e with
    | .given position => some position
    | _ => none

/-- The positions that were sent. -/
def sends (log : List (CoalescerEntry P)) : List P :=
  log.filterMap fun e => match e with
    | .sent _ position => some position
    | _ => none

/-- The times of the sends. -/
def sentTimes (log : List (CoalescerEntry P)) : List Nat :=
  log.filterMap fun e => match e with
    | .sent nowMs _ => some nowMs
    | _ => none

/-- What a coalescer promises. -/
structure Paced (s : CoalescerRun P) : Prop where
  /-- Any two sends are 50 ms apart. -/
  apart : (sentTimes s.log).Pairwise fun earlier later => earlier + COALESCE_MS ≤ later
  /-- A second from any time on has at most twenty sends. -/
  rate : ∀ start, ((sentTimes s.log).filter fun sentAt =>
    start ≤ sentAt ∧ sentAt < start + HARD_CAP_WINDOW_MS).length ≤ MAX_UPDATES_PER_SECOND
  /-- The cap drops nothing. -/
  undropped : ∀ nowMs position, .dropped nowMs position ∉ s.log
  /-- A send has the position that was given last. -/
  newest : ∀ before nowMs position after, s.log = before ++ .sent nowMs position :: after →
    (updates before).getLast? = some position
  /-- The last position is due as long as the timer is armed, and then it has been sent once. -/
  last : ∀ before position after, s.log = before ++ .given position :: after → updates after = [] →
    sends after = if s.coalescer.coalesceTimer.isSome then [] else [position]
  /-- An armed timer can fire from its delay on, and is disarmed by that. -/
  fires : ∀ armedAt, s.coalescer.coalesceTimer = some armedAt →
    ∀ nowMs, s.nowMs ≤ nowMs → armedAt + COALESCE_MS ≤ nowMs →
      ∃ s', s.step (.timer nowMs) = .ok s' ∧ s'.coalescer.coalesceTimer = none

/-! ### Spaced times -/

/-- Any two are at least the delay of the timer apart. -/
def Spaced (times : List Nat) : Prop :=
  times.Pairwise fun earlier later => earlier + COALESCE_MS ≤ later

/-- Spaced times take a delay each, up to a time that is a delay behind the last. -/
theorem Spaced.span {times : List Nat} (spaced : Spaced times) {first limit : Nat}
    (head : times.head? = some first) (behind : ∀ t ∈ times, t + COALESCE_MS ≤ limit) :
    first + COALESCE_MS * times.length ≤ limit := by
  induction times generalizing first with
  | nil => cases head
  | cons t times ih =>
      cases head
      have ⟨here, later⟩ := List.forall_mem_cons.mp behind
      have ⟨apart, rest⟩ := List.pairwise_cons.mp spaced
      cases times with
      | nil => simpa using here
      | cons t' times =>
          have span := ih rest rfl later
          have gap := apart t' List.mem_cons_self
          rw [List.length_cons, Nat.mul_add_one]
          omega

/-- The cap is never reached: what the window keeps is too recent for twenty delays. -/
theorem Spaced.below_cap {times : List Nat} (spaced : Spaced times) {nowMs : Nat}
    (behind : ∀ t ∈ times, t + COALESCE_MS ≤ nowMs) :
    (times.dropWhile fun t => nowMs - t ≥ HARD_CAP_WINDOW_MS).length < MAX_UPDATES_PER_SECOND := by
  have kept := List.dropWhile_suffix (l := times) fun t => nowMs - t ≥ HARD_CAP_WINDOW_MS
  cases window : times.dropWhile fun t => nowMs - t ≥ HARD_CAP_WINDOW_MS with
  | nil => decide
  | cons first rest =>
      rw [window] at kept
      have recent : ¬ nowMs - first ≥ HARD_CAP_WINDOW_MS := by
        have inside := List.head?_dropWhile_not (fun t => nowMs - t ≥ HARD_CAP_WINDOW_MS) times
        rw [window] at inside
        simpa using inside
      have span := Spaced.span (spaced.sublist kept.sublist) rfl fun t member =>
        behind t (kept.subset member)
      have now := behind first (kept.subset List.mem_cons_self)
      unfold HARD_CAP_WINDOW_MS at recent
      unfold COALESCE_MS at span now
      unfold MAX_UPDATES_PER_SECOND
      omega

theorem Spaced.rate {times : List Nat} (spaced : Spaced times) (start : Nat) :
    (times.filter fun t => start ≤ t ∧ t < start + HARD_CAP_WINDOW_MS).length ≤
      MAX_UPDATES_PER_SECOND := by
  have inside : ∀ t ∈ times.filter fun t => start ≤ t ∧ t < start + HARD_CAP_WINDOW_MS,
      start ≤ t ∧ t < start + HARD_CAP_WINDOW_MS := by
    intro t member
    simpa using (List.mem_filter.mp member).2
  have window := spaced.filter fun t => start ≤ t ∧ t < start + HARD_CAP_WINDOW_MS
  cases counted : times.filter fun t => start ≤ t ∧ t < start + HARD_CAP_WINDOW_MS with
  | nil => exact Nat.zero_le _
  | cons first rest =>
      rw [counted] at inside window
      have behind : ∀ t ∈ first :: rest,
          t + COALESCE_MS ≤ start + HARD_CAP_WINDOW_MS - 1 + COALESCE_MS := by
        intro t member
        have ⟨_, before⟩ := inside t member
        omega
      have span := Spaced.span window rfl behind
      have ⟨after, _⟩ := inside first List.mem_cons_self
      unfold HARD_CAP_WINDOW_MS COALESCE_MS at span
      unfold MAX_UPDATES_PER_SECOND
      omega

/-! ### The log -/

section Log

variable (log : List (CoalescerEntry P)) (position : P) (nowMs : Nat)

@[simp] theorem updates_given :
    updates (log ++ [.given position]) = updates log ++ [position] := List.filterMap_append

@[simp] theorem updates_sent : updates (log ++ [.sent nowMs position]) = updates log :=
  List.filterMap_append.trans (List.append_nil _)

theorem updates_split (before after : List (CoalescerEntry P)) :
    updates (before ++ .given position :: after) = updates before ++ position :: updates after :=
  List.filterMap_append

@[simp] theorem sends_given : sends (log ++ [.given position]) = sends log :=
  List.filterMap_append.trans (List.append_nil _)

@[simp] theorem sends_sent : sends (log ++ [.sent nowMs position]) = sends log ++ [position] :=
  List.filterMap_append

@[simp] theorem sentTimes_given : sentTimes (log ++ [.given position]) = sentTimes log :=
  List.filterMap_append.trans (List.append_nil _)

@[simp] theorem sentTimes_sent :
    sentTimes (log ++ [.sent nowMs position]) = sentTimes log ++ [nowMs] := List.filterMap_append

end Log

/-- An entry of a longer log is the new one, or an entry of the log before. -/
theorem split_snoc {α : Type} {log before after : List α} {e x : α}
    (split : log ++ [e] = before ++ x :: after) :
    (after = [] ∧ log = before ∧ e = x) ∨
      ∃ after', after = after' ++ [e] ∧ log = before ++ x :: after' := by
  rcases List.eq_nil_or_concat after with rfl | ⟨after', e', rfl⟩
  · have ⟨same, one⟩ := List.append_inj' split rfl
    exact Or.inl ⟨rfl, same, (List.cons.inj one).1⟩
  · rw [List.concat_eq_append, ← List.cons_append, ← List.append_assoc] at split
    have ⟨same, one⟩ := List.append_inj' split rfl
    refine Or.inr ⟨after', ?_, same⟩
    rw [List.concat_eq_append, (List.cons.inj one).1]

/-! ### The invariant -/

/-- What the fields of a coalescer say about the log: the timer is armed while a position is pending,
which is the newest one, since the last send or later; and the window has the latest sends. -/
structure Timed (s : CoalescerRun P) : Prop where
  armed : s.coalescer.coalesceTimer.isSome = s.coalescer.pendingPosition.isSome
  pending : ∀ position, s.coalescer.pendingPosition = some position →
    (updates s.log).getLast? = some position
  since : ∀ armedAt, s.coalescer.coalesceTimer = some armedAt →
    armedAt ≤ s.nowMs ∧ ∀ t ∈ sentTimes s.log, t ≤ armedAt
  past : ∀ t ∈ sentTimes s.log, t ≤ s.nowMs
  window : s.coalescer.sentAtMs <:+ sentTimes s.log
  spaced : Spaced (sentTimes s.log)
  undropped : ∀ nowMs position, .dropped nowMs position ∉ s.log
  newest : ∀ before nowMs position after, s.log = before ++ .sent nowMs position :: after →
    (updates before).getLast? = some position
  last : ∀ before position after, s.log = before ++ .given position :: after → updates after = [] →
    sends after = if s.coalescer.coalesceTimer.isSome then [] else [position]

theorem timed_init : Timed (init : CoalescerRun P) where
  armed := rfl
  pending := nofun
  since := nofun
  past := nofun
  window := List.suffix_refl _
  spaced := List.Pairwise.nil
  undropped := nofun
  newest before nowMs position after split := by
    have length := congrArg List.length split
    simp [init] at length
  last before position after split := by
    have length := congrArg List.length split
    simp [init] at length

variable {s s' : CoalescerRun P}

/-- An update leaves the window alone and the timer armed, since now or longer. -/
theorem Timed.update_spec (timed : Timed s) {nowMs : Nat} (forward : s.nowMs ≤ nowMs)
    (position : P) : ∃ armedAt, s.coalescer.update nowMs position =
        ⟨some position, some armedAt, s.coalescer.sentAtMs⟩ ∧
      armedAt ≤ nowMs ∧ ∀ t ∈ sentTimes s.log, t ≤ armedAt := by
  unfold PresenceUpdateCoalescer.update
  cases armed : s.coalescer.coalesceTimer with
  | none => exact ⟨nowMs, rfl, Nat.le_refl _, fun t member => Nat.le_trans (timed.past t member) forward⟩
  | some armedAt =>
      have ⟨earlier, behind⟩ := timed.since armedAt armed
      exact ⟨armedAt, rfl, Nat.le_trans earlier forward, behind⟩

theorem Timed.update (timed : Timed s) {nowMs : Nat} {position : P}
    (stepped : s.step (.update nowMs position) = .ok s') : Timed s' := by
  rw [step] at stepped
  split at stepped
  · cases stepped
  next late =>
  have forward := Nat.le_of_not_lt late
  have ⟨armedAt, updated, earlier, behind⟩ := timed.update_spec forward position
  rw [updated] at stepped
  cases stepped
  refine ⟨rfl, ?_, ?_, ?_, ?_, ?_, ?_, ?_, ?_⟩
  · intro newest pending
    rw [updates_given, List.getLast?_concat]
    exact pending
  · intro since same
    cases same
    rw [sentTimes_given]
    exact ⟨earlier, behind⟩
  · intro t member
    rw [sentTimes_given] at member
    exact Nat.le_trans (timed.past t member) forward
  · rw [sentTimes_given]
    exact timed.window
  · rw [sentTimes_given]
    exact timed.spaced
  · intro time dropped member
    rcases List.mem_append.mp member with old | new
    · exact timed.undropped time dropped old
    · cases List.mem_singleton.mp new
  · intro before time sent after split
    rcases split_snoc split with ⟨_, _, same⟩ | ⟨after', _, old⟩
    · cases same
    · exact timed.newest before time sent after' old
  · intro before given after split quiet
    rcases split_snoc split with ⟨empty, _, _⟩ | ⟨after', same, _⟩
    · rw [empty]
      rfl
    · rw [same, updates_given] at quiet
      exact absurd quiet (List.append_ne_nil_of_right_ne_nil _ (List.cons_ne_nil _ _))

/-- A timer that fires sends the newest position. -/
theorem Timed.flush_spec (timed : Timed s) {armedAt nowMs : Nat}
    (armed : s.coalescer.coalesceTimer = some armedAt) (due : armedAt + COALESCE_MS ≤ nowMs) :
    ∃ position sentAtMs, (updates s.log).getLast? = some position ∧ sentAtMs <:+ sentTimes s.log ∧
      s.coalescer.flush nowMs = (⟨none, none, sentAtMs ++ [nowMs]⟩, .sent position) := by
  have some : s.coalescer.pendingPosition.isSome = true := by
    rw [← timed.armed, armed]
    rfl
  have ⟨position, pending⟩ := Option.isSome_iff_exists.mp some
  have behind : ∀ t ∈ s.coalescer.sentAtMs, t + COALESCE_MS ≤ nowMs := by
    intro t member
    have before := (timed.since armedAt armed).2 t (timed.window.subset member)
    omega
  have below := Spaced.below_cap (timed.spaced.sublist timed.window.sublist) behind
  refine ⟨position, _, timed.pending position pending,
    (List.dropWhile_suffix fun t => nowMs - t ≥ HARD_CAP_WINDOW_MS).trans timed.window, ?_⟩
  rw [PresenceUpdateCoalescer.flush, pending]
  exact if_neg (Nat.not_le.mpr below)

theorem Timed.timer (timed : Timed s) {nowMs : Nat}
    (stepped : s.step (.timer nowMs) = .ok s') : Timed s' := by
  rw [step] at stepped
  split at stepped
  · cases stepped
  next late =>
  split at stepped
  · cases stepped
  next armedAt armed =>
  split at stepped
  · cases stepped
  next early =>
  have due := Nat.le_of_not_lt early
  have ⟨position, sentAtMs, newest, window, flushed⟩ := timed.flush_spec armed due
  rw [flushed] at stepped
  cases stepped
  have ⟨_, behind⟩ := timed.since armedAt armed
  simp only [entry]
  refine ⟨rfl, nofun, nofun, ?_, ?_, ?_, ?_, ?_, ?_⟩
  · intro t member
    rw [sentTimes_sent] at member
    rcases List.mem_append.mp member with old | new
    · exact Nat.le_trans (timed.past t old) (Nat.le_of_not_lt late)
    · exact Nat.le_of_eq (List.mem_singleton.mp new)
  · rw [sentTimes_sent]
    exact List.suffix_append_inj_of_length_eq rfl |>.mpr ⟨window, rfl⟩
  · rw [sentTimes_sent]
    refine List.pairwise_append.mpr ⟨timed.spaced, List.pairwise_singleton _ _, ?_⟩
    intro t old now new
    rw [List.mem_singleton.mp new]
    have before := behind t old
    omega
  · intro time dropped member
    rcases List.mem_append.mp member with old | new
    · exact timed.undropped time dropped old
    · cases List.mem_singleton.mp new
  · intro before time sent after split
    rcases split_snoc split with ⟨_, same, entry⟩ | ⟨after', _, old⟩
    · cases entry
      rw [← same]
      exact newest
    · exact timed.newest before time sent after' old
  · intro before given after split quiet
    rcases split_snoc split with ⟨_, _, same⟩ | ⟨after', same, old⟩
    · cases same
    · -- The last update is the one that was pending, and nothing was sent since.
      rw [same, updates_sent] at quiet
      have due := timed.last before given after' old quiet
      have last : (updates s.log).getLast? = some given := by
        rw [old, updates_split, quiet, List.getLast?_concat]
      rw [armed] at due
      rw [same, sends_sent, due]
      rw [newest] at last
      rw [Option.some.inj last]
      rfl

theorem Timed.step (timed : Timed s) {event : CoalescerEvent P}
    (stepped : s.step event = .ok s') : Timed s' := by
  cases event with
  | update nowMs position => exact timed.update stepped
  | timer nowMs => exact timed.timer stepped

/-! ### The promises -/

theorem Timed.paced (timed : Timed s) : Paced s where
  apart := timed.spaced
  rate := timed.spaced.rate
  undropped := timed.undropped
  newest := timed.newest
  last := timed.last
  fires armedAt armed nowMs forward due := by
    have ⟨position, sentAtMs, _, _, flushed⟩ := timed.flush_spec armed due
    refine ⟨⟨⟨none, none, sentAtMs ++ [nowMs]⟩, nowMs, s.log ++ [.sent nowMs position]⟩, ?_, rfl⟩
    rw [CoalescerRun.step, if_neg (Nat.not_lt.mpr forward), armed]
    show (if _ then _ else _) = _
    rw [if_neg (Nat.not_lt.mpr due), flushed]
    rfl

end CoalescerRun

/-- **The pace of presence updates.** For any updates and late timers: sends are 50 ms apart and at
most twenty in a second, the cap drops nothing, every send has the newest position, and the last
position is sent exactly once. -/
theorem coalescer_paces {P : Type} (events : List (CoalescerEvent P)) :
    Run.Always CoalescerRun.step CoalescerRun.Paced CoalescerRun.init events := by
  have always : Run.Always CoalescerRun.step CoalescerRun.Timed CoalescerRun.init events :=
    Run.always_of_each (fun _ _ _ timed _ stepped => timed.step stepped) CoalescerRun.timed_init
      (Run.each_true events)
  exact always.imp fun _ timed => timed.paced

/-- An update while the timer is armed replaces the position; late timers are sent late. -/
example : ((Run.run CoalescerRun.step CoalescerRun.init
      [.update 0 'a', .update 30 'b', .timer 55, .update 56 'c', .timer 120]).toOption.map
    fun s => (CoalescerRun.sentTimes s.log, CoalescerRun.sends s.log)) =
      some ([55, 120], ['b', 'c']) := by decide

end ConfluenceEditor
