/-
The rate limiter in memory.

`InMemoryRateLimiter` follows the source: a list of times for each key, from which every attempt first
takes out what is over. `specify` says what the limiter is for: an attempt is let in when fewer than `max`
of the attempts that were let in under its key lie in the window that ends at it. The two give the same
outcomes as long as the clock does not run backwards (`consumeAll_eq`), and of the specification the
window law and the independence of the keys are plain inductions (`rate_limiter_is_exact`).
-/

import ConfluenceEditor.Library.SlidingWindow
import Mathlib.Algebra.Order.Group.Int
import Mathlib.Logic.Function.Basic

namespace ConfluenceEditor

open SlidingWindow

structure RateLimitRule where
  max : Nat
  windowMs : Nat
  deriving DecidableEq, Repr

/-- The times of the attempts that were let in, by key, oldest first. -/
structure InMemoryRateLimiter where
  hits : String → Option (List Int)

namespace InMemoryRateLimiter

def new : InMemoryRateLimiter := ⟨fun _ => none⟩

def set (s : InMemoryRateLimiter) (key : String) (times : List Int) : InMemoryRateLimiter :=
  ⟨Function.update s.hits key (some times)⟩

/-- What an attempt leaves of the times of its key. -/
def pruned (s : InMemoryRateLimiter) (key : String) (cutoff : Int) : List Int :=
  match s.hits key with
  | some existing => existing.filter fun ts => decide (cutoff < ts)
  | none => []

def consume (s : InMemoryRateLimiter) (key : String) (rule : RateLimitRule) (nowMs : Int) :
    Bool × InMemoryRateLimiter :=
  let pruned := s.pruned key (nowMs - rule.windowMs)
  if rule.max ≤ pruned.length then
    (false, if some pruned.length ≠ (s.hits key).map List.length then s.set key pruned else s)
  else (true, s.set key (pruned ++ [nowMs]))

end InMemoryRateLimiter

/-- A call of `consume`, whose rule is the one of its key. -/
structure Attempt where
  key : String
  nowMs : Int
  deriving DecidableEq, Repr

namespace Attempt

/-- The times of the attempts under a key. -/
def times (key : String) (attempts : List Attempt) : List Int :=
  (attempts.filter fun a => decide (a.key = key)).map nowMs

end Attempt

namespace InMemoryRateLimiter

open Attempt

variable {rules : String → RateLimitRule}

/-- The attempts one after the other, each with its outcome. -/
def consumeAll (rules : String → RateLimitRule) :
    InMemoryRateLimiter → List Attempt → List (Attempt × Bool)
  | _, [] => []
  | s, a :: attempts =>
      let (allowed, s') := s.consume a.key (rules a.key) a.nowMs
      (a, allowed) :: consumeAll rules s' attempts

/-- The attempts that were let in. -/
def accepted (log : List (Attempt × Bool)) : List Attempt :=
  (log.filter Prod.snd).map Prod.fst

/-! ### What it is for -/

/-- The window that ends at the attempt has room, when `past` was let in. -/
def HasRoom (rules : String → RateLimitRule) (past : List Attempt) (a : Attempt) : Prop :=
  (window ((rules a.key).windowMs : Int) a.nowMs (times a.key past)).length < (rules a.key).max

instance (past : List Attempt) (a : Attempt) : Decidable (HasRoom rules past a) :=
  inferInstanceAs (Decidable (_ < _))

/-- An attempt is let in when its window has room. -/
def specify (rules : String → RateLimitRule) : List Attempt → List Attempt → List (Attempt × Bool)
  | _, [] => []
  | past, a :: attempts =>
      if HasRoom rules past a then (a, true) :: specify rules (past ++ [a]) attempts
      else (a, false) :: specify rules past attempts

theorem times_append (key : String) (past more : List Attempt) :
    times key (past ++ more) = times key past ++ times key more := by
  rw [times, List.filter_append, List.map_append]
  rfl

theorem times_of_key (a : Attempt) : times a.key [a] = [a.nowMs] := by
  rw [times, List.filter_singleton, decide_eq_true rfl]
  rfl

theorem times_of_ne {key : String} {a : Attempt} (other : a.key ≠ key) : times key [a] = [] := by
  rw [times, List.filter_singleton, decide_eq_false other]
  rfl

theorem times_filter (key : String) (past : List Attempt) :
    times key (past.filter fun a => decide (a.key = key)) = times key past := by
  rw [times, List.filter_filter]
  simp only [Bool.and_self]
  rfl

theorem accepted_cons (a : Attempt) (allowed : Bool) (log : List (Attempt × Bool)) :
    accepted ((a, allowed) :: log) = if allowed then a :: accepted log else accepted log := by
  rw [accepted, List.filter_cons]
  cases allowed with
  | true => rfl
  | false => rfl

/-! ### The limiter and what it is for -/

/-- What the limiter holds is, from any later time on, what was let in. -/
def Holds (rules : String → RateLimitRule) (s : InMemoryRateLimiter) (past : List Attempt)
    (t : Int) : Prop :=
  ∀ key, ∀ t' ≥ t, s.pruned key (t' - (rules key).windowMs) =
    (times key past).filter fun ts => decide (t' - (rules key).windowMs < ts)

theorem holds_new (t : Int) : Holds rules new [] t := fun _ _ _ => rfl

theorem Holds.later {s : InMemoryRateLimiter} {past : List Attempt} {t t' : Int}
    (holds : Holds rules s past t) (later : t ≤ t') : Holds rules s past t' :=
  fun key t'' latest => holds key t'' (later.trans latest)

theorem pruned_set_self (s : InMemoryRateLimiter) (key : String) (times : List Int) (cutoff : Int) :
    (s.set key times).pruned key cutoff = times.filter fun ts => decide (cutoff < ts) := by
  have found : (s.set key times).hits key = some times := Function.update_self ..
  rw [pruned, found]

theorem pruned_set_of_ne (s : InMemoryRateLimiter) {key key' : String} (other : key' ≠ key)
    (times : List Int) (cutoff : Int) : (s.set key times).pruned key' cutoff = s.pruned key' cutoff := by
  have found : (s.set key times).hits key' = s.hits key' := Function.update_of_ne other ..
  rw [pruned, pruned, found]

/-- Pruning twice is pruning at the later time. -/
theorem pruned_pruned (s : InMemoryRateLimiter) (key : String) {cutoff cutoff' : Int}
    (later : cutoff ≤ cutoff') :
    (s.pruned key cutoff).filter (fun ts => decide (cutoff' < ts)) = s.pruned key cutoff' := by
  cases existing : s.hits key with
  | none =>
      rw [pruned, pruned, existing]
      rfl
  | some times =>
      rw [pruned, pruned, existing]
      show (times.filter _).filter _ = times.filter _
      rw [List.filter_filter]
      apply List.filter_congr
      intro ts _
      by_cases recent : cutoff' < ts
      · rw [decide_eq_true recent, decide_eq_true (later.trans_lt recent)]
        rfl
      · rw [decide_eq_false recent, Bool.false_and]

/-- One attempt has the outcome that it should have. -/
theorem Holds.consume {s : InMemoryRateLimiter} {past : List Attempt} {a : Attempt}
    (holds : Holds rules s past a.nowMs) (ordered : ∀ b ∈ past, b.nowMs ≤ a.nowMs) :
    ((s.consume a.key (rules a.key) a.nowMs).1 = decide (HasRoom rules past a)) ∧
      Holds rules (s.consume a.key (rules a.key) a.nowMs).2
        (if HasRoom rules past a then past ++ [a] else past) a.nowMs := by
  have last : ∀ x ∈ times a.key past, x ≤ a.nowMs := by
    intro x member
    have ⟨b, inside, same⟩ := List.mem_map.mp member
    rw [← same]
    exact ordered b (List.mem_of_mem_filter inside)
  have pruned_eq : s.pruned a.key (a.nowMs - (rules a.key).windowMs) =
      window ((rules a.key).windowMs : Int) a.nowMs (times a.key past) := by
    rw [holds a.key a.nowMs (le_refl _), window_eq_filter last]
  rw [InMemoryRateLimiter.consume]
  by_cases room : HasRoom rules past a
  · have less : ¬ (rules a.key).max ≤ (s.pruned a.key (a.nowMs - (rules a.key).windowMs)).length := by
      rw [pruned_eq]
      exact Nat.not_le_of_lt room
    rw [if_neg less, if_pos room]
    refine ⟨(decide_eq_true room).symm, fun key t later => ?_⟩
    rw [times_append]
    by_cases same : key = a.key
    · rw [same, times_of_key, pruned_set_self, List.filter_append, List.filter_append,
        pruned_pruned s a.key (Int.sub_le_sub_right later _), holds a.key t later]
    · rw [pruned_set_of_ne s same, times_of_ne (Ne.symm same), List.append_nil]
      exact holds key t later
  · have full : (rules a.key).max ≤ (s.pruned a.key (a.nowMs - (rules a.key).windowMs)).length := by
      rw [pruned_eq]
      exact Nat.le_of_not_lt room
    rw [if_pos full, if_neg room]
    refine ⟨(decide_eq_false room).symm, fun key t later => ?_⟩
    dsimp only
    split
    · by_cases same : key = a.key
      · rw [same, pruned_set_self, pruned_pruned s a.key (Int.sub_le_sub_right later _)]
        exact holds a.key t later
      · rw [pruned_set_of_ne s same]
        exact holds key t later
    · exact holds key t later

theorem consumeAll_eq_specify {s : InMemoryRateLimiter} {past attempts : List Attempt} {t : Int}
    (holds : Holds rules s past t) (before : ∀ b ∈ past, b.nowMs ≤ t)
    (after : ∀ a ∈ attempts, t ≤ a.nowMs)
    (ordered : attempts.Pairwise fun a b => a.nowMs ≤ b.nowMs) :
    consumeAll rules s attempts = specify rules past attempts := by
  induction attempts generalizing s past t with
  | nil => rfl
  | cons a attempts ih =>
      have now := after a List.mem_cons_self
      have earlier : ∀ b ∈ past, b.nowMs ≤ a.nowMs := fun b member => (before b member).trans now
      have ⟨first, rest⟩ := List.pairwise_cons.mp ordered
      have ⟨outcome, holds'⟩ := (holds.later now).consume earlier
      rw [consumeAll, specify]
      show (a, (s.consume a.key (rules a.key) a.nowMs).1) :: _ = _
      rw [outcome]
      by_cases room : HasRoom rules past a
      · rw [if_pos room] at holds'
        rw [if_pos room, decide_eq_true room]
        refine congrArg _ (ih holds' (fun b member => ?_) first rest)
        rcases List.mem_append.mp member with old | new
        · exact earlier b old
        · rw [List.mem_singleton.mp new]
      · rw [if_neg room] at holds'
        rw [if_neg room, decide_eq_false room]
        exact congrArg _ (ih holds' earlier first rest)

/-- The limiter does what it is for. -/
theorem consumeAll_eq {attempts : List Attempt}
    (ordered : attempts.Pairwise fun a b => a.nowMs ≤ b.nowMs) :
    consumeAll rules new attempts = specify rules [] attempts := by
  cases attempts with
  | nil => rfl
  | cons a attempts =>
      refine consumeAll_eq_specify (holds_new a.nowMs) (fun b member => by cases member) ?_ ordered
      intro b member
      rcases List.mem_cons.mp member with same | later
      · rw [same]
      · exact List.rel_of_pairwise_cons ordered later

/-! ### What it is for, over whole runs -/

/-- No window holds too many. -/
theorem admitted_specify {past attempts : List Attempt} (key : String)
    (admitted : Admitted ((rules key).windowMs : Int) (rules key).max (times key past))
    (before : ∀ b ∈ past, ∀ a ∈ attempts, b.nowMs ≤ a.nowMs)
    (ordered : attempts.Pairwise fun a b => a.nowMs ≤ b.nowMs) :
    Admitted ((rules key).windowMs : Int) (rules key).max
      (times key (past ++ accepted (specify rules past attempts))) := by
  induction attempts generalizing past with
  | nil =>
      rw [specify]
      show Admitted _ _ (times key (past ++ []))
      rwa [List.append_nil]
  | cons a attempts ih =>
      have ⟨first, rest⟩ := List.pairwise_cons.mp ordered
      have sooner : ∀ b ∈ past, ∀ c ∈ attempts, b.nowMs ≤ c.nowMs := fun b old c later =>
        before b old c (List.mem_cons_of_mem a later)
      by_cases room : HasRoom rules past a
      · rw [specify, if_pos room, accepted_cons, if_pos rfl, List.append_cons]
        apply ih _ _ rest
        · rw [times_append]
          by_cases same : a.key = key
          · subst same
            rw [times_of_key]
            refine admitted.concat (fun x member => ?_) room
            have ⟨b, inside, at_⟩ := List.mem_map.mp member
            rw [← at_]
            exact before b (List.mem_of_mem_filter inside) a List.mem_cons_self
          · rw [times_of_ne same, List.append_nil]
            exact admitted
        · intro b member c later
          rcases List.mem_append.mp member with old | new
          · exact sooner b old c later
          · rw [List.mem_singleton.mp new]
            exact first c later
      · rw [specify, if_neg room, accepted_cons, if_neg Bool.false_ne_true]
        exact ih admitted sooner rest

/-- An attempt is rejected when its window is full of what was let in before it. -/
theorem rejected_iff {past attempts : List Attempt} {before after : List (Attempt × Bool)}
    {a : Attempt} {allowed : Bool}
    (log : specify rules past attempts = before ++ (a, allowed) :: after) :
    allowed = decide (HasRoom rules (past ++ accepted before) a) := by
  induction before generalizing past attempts with
  | nil =>
      show _ = decide (HasRoom rules (past ++ []) a)
      rw [List.append_nil]
      cases attempts with
      | nil => cases log
      | cons b attempts =>
          rw [specify] at log
          by_cases room : HasRoom rules past b
          · rw [if_pos room] at log
            cases log
            exact (decide_eq_true room).symm
          · rw [if_neg room] at log
            cases log
            exact (decide_eq_false room).symm
  | cons entry before ih =>
      cases attempts with
      | nil => cases log
      | cons b attempts =>
          rw [specify] at log
          by_cases room : HasRoom rules past b
          · rw [if_pos room] at log
            have ⟨same, rest⟩ := List.cons.inj log
            rw [← same, accepted_cons, if_pos rfl, List.append_cons]
            exact ih rest
          · rw [if_neg room] at log
            have ⟨same, rest⟩ := List.cons.inj log
            rw [← same, accepted_cons, if_neg Bool.false_ne_true]
            exact ih rest

theorem hasRoom_filter (past : List Attempt) (a : Attempt) :
    HasRoom rules (past.filter fun b => decide (b.key = a.key)) a ↔ HasRoom rules past a := by
  rw [HasRoom, HasRoom, times_filter]

/-- The attempts under one key have the outcomes that they have on their own. -/
theorem specify_filter (key : String) (past attempts : List Attempt) :
    (specify rules past attempts).filter (fun entry => decide (entry.1.key = key)) =
      specify rules (past.filter fun b => decide (b.key = key))
        (attempts.filter fun b => decide (b.key = key)) := by
  induction attempts generalizing past with
  | nil => rfl
  | cons a attempts ih =>
      rw [specify, List.filter_cons]
      by_cases same : a.key = key
      · have room_iff : HasRoom rules (past.filter fun b => decide (b.key = a.key)) a ↔
            HasRoom rules past a := hasRoom_filter past a
        rw [same] at room_iff
        rw [if_pos (decide_eq_true same), specify]
        by_cases room : HasRoom rules past a
        · rw [if_pos room, if_pos (room_iff.mpr room), List.filter_cons,
            if_pos (decide_eq_true same), ih, List.filter_append, List.filter_singleton,
            decide_eq_true same]
          rfl
        · rw [if_neg room, if_neg (mt room_iff.mp room), List.filter_cons,
            if_pos (decide_eq_true same), ih]
      · have other : ¬ decide (a.key = key) = true := mt of_decide_eq_true same
        rw [if_neg other]
        by_cases room : HasRoom rules past a
        · rw [if_pos room, List.filter_cons, if_neg other, ih, List.filter_append,
            List.filter_singleton, decide_eq_false same]
          show specify rules (_ ++ []) _ = _
          rw [List.append_nil]
        · rw [if_neg room, List.filter_cons, if_neg other, ih]

/-- Without the attempts that were rejected, the others have the same outcomes. -/
theorem specify_accepted (past attempts : List Attempt) :
    specify rules past (accepted (specify rules past attempts)) =
      (specify rules past attempts).filter Prod.snd := by
  induction attempts generalizing past with
  | nil => rfl
  | cons a attempts ih =>
      rw [specify]
      by_cases room : HasRoom rules past a
      · rw [if_pos room, accepted_cons, if_pos rfl, specify, if_pos room, ih, List.filter_cons]
        rfl
      · rw [if_neg room, accepted_cons, if_neg Bool.false_ne_true, ih, List.filter_cons]
        rfl

theorem specify_map_fst (past attempts : List Attempt) :
    (specify rules past attempts).map Prod.fst = attempts := by
  induction attempts generalizing past with
  | nil => rfl
  | cons a attempts ih =>
      rw [specify]
      by_cases room : HasRoom rules past a
      · rw [if_pos room, List.map_cons, ih]
      · rw [if_neg room, List.map_cons, ih]

/-- The limiter is an exact sliding window: no window under a key holds more than `max` attempts that
were let in; an attempt is rejected if and only if the window that ends at it holds that many of those
before it; without the rejected attempts the others have the same outcomes; and so do the attempts under
one key on their own. -/
theorem rate_limiter_is_exact (rules : String → RateLimitRule) {attempts : List Attempt}
    (ordered : attempts.Pairwise fun a b => a.nowMs ≤ b.nowMs) :
    let log := consumeAll rules new attempts
    (∀ key t, (window ((rules key).windowMs : Int) t (times key (accepted log))).length ≤
      (rules key).max) ∧
    (∀ before a allowed after, log = before ++ (a, allowed) :: after →
      (allowed = false ↔ (rules a.key).max ≤
        (window ((rules a.key).windowMs : Int) a.nowMs (times a.key (accepted before))).length)) ∧
    consumeAll rules new (accepted log) = log.filter Prod.snd ∧
    ∀ key, consumeAll rules new (attempts.filter fun a => decide (a.key = key)) =
      log.filter fun entry => decide (entry.1.key = key) := by
  intro log
  have specified : log = specify rules [] attempts := consumeAll_eq ordered
  refine ⟨fun key t => ?_, fun before a allowed after split => ?_, ?_, fun key => ?_⟩
  · rw [specified]
    have admitted : Admitted _ _ (times key ([] ++ accepted (specify rules [] attempts))) :=
      admitted_specify key .nil (fun b member => by cases member) ordered
    exact admitted.length_window_le t
  · have outcome := rejected_iff (specified.symm.trans split)
    rw [outcome, decide_eq_false_iff_not]
    exact Nat.not_lt
  · have sub : (accepted log).Sublist attempts := by
      have kept := (List.filter_sublist (l := log) (p := Prod.snd)).map Prod.fst
      rw [specified, specify_map_fst] at kept
      rw [specified]
      exact kept
    rw [consumeAll_eq (ordered.sublist sub), specified, specify_accepted]
  · rw [consumeAll_eq (ordered.sublist List.filter_sublist), specified, specify_filter]
    rfl

/-- Two attempts in a second, the third one at the edge of the window. -/
theorem rate_limiter_is_exact_edge :
    let log := consumeAll (fun _ => ⟨1, 1000⟩) new [⟨"ip:1", 0⟩, ⟨"ip:1", 999⟩, ⟨"ip:1", 1000⟩]
    log.map Prod.snd = [true, false, true] ∧
      ∀ t, (window (1000 : Int) t (times "ip:1" (accepted log))).length ≤ 1 :=
  ⟨by decide, (rate_limiter_is_exact (fun _ => ⟨1, 1000⟩) (by decide)).1 "ip:1"⟩

end InMemoryRateLimiter

end ConfluenceEditor
