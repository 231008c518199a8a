/-
One message in detail.

`Turns` says what became of a list of operations that an engine took one after the other: every
applied one was handed in directly or had been waiting, every unbuffered one was applied directly or
had been applied before. A message of a client is a chain of inserts or holds no insert at all
(`toOperations_shape`), so none of its own operations is released from the buffer by a later one
(`applyMessage_waits`); then exactly the operations that the engine applied, and the repeated ones,
are finalized (`processIncomingOperation_intake`).
-/

import ConfluenceEditor.Protocol.Messages
import ConfluenceEditor.Server.WritePath
import Mathlib.Data.List.Perm.Subperm

namespace ConfluenceEditor

open Engine
open scoped List

namespace Coordinator

/-- The operations of the list that the engine had applied before their turn came. -/
def repeated (e : Engine) : List Operation → List Operation
  | [] => []
  | op :: ops =>
      match e.applyRemote op none with
      | .ok (_, e') => (if e.hasApplied op.id then [op] else []) ++ repeated e' ops
      | .error _ => []

/-- The operations that were not buffered. -/
def unbuffered (results : List (Operation × Bool)) : List Operation :=
  (results.filter fun r => !r.2).map Prod.fst

theorem mem_unbuffered {results : List (Operation × Bool)} {op : Operation} :
    op ∈ unbuffered results ↔ (op, false) ∈ results := by
  simp [unbuffered]

/-- What became of the operations that an engine took one after the other. -/
structure Turns (e e' : Engine) (history applied ops : List Operation)
    (results : List (Operation × Bool)) (direct released : List Operation) : Prop where
  absorbed : Absorbed e e' history applied (e.pending ++ ops)
  settled : e'.Settled
  offered : results.map Prod.fst = ops
  split : applied.Perm (direct ++ released)
  inOrder : direct.Sublist applied
  inMessage : direct.Sublist (unbuffered results)
  fresh : ∀ op ∈ direct, e.hasApplied op.id = false ∧ op ∉ e.pending
  own : (unbuffered results).Perm (direct ++ repeated e ops)
  done : ∀ op ∈ unbuffered results, e'.hasApplied op.id = true
  releasedFrom : ∀ op ∈ released, op ∈ e.pending ∨ (op, true) ∈ results
  waits : ∀ op, (op, true) ∈ results → e.hasApplied op.id = false ∧ e.ready op = false

variable {e : Engine} {history : List Operation}

/-- A larger engine has all dependencies that a smaller one has. -/
theorem ready_mono {e e' : Engine} {history later : List Operation} (built : Built e history)
    (built' : Built e' (history ++ later)) {op : Operation} (ready : e.ready op = true) :
    e'.ready op = true :=
  built'.ready_iff.mpr ((built.ready_iff.mp ready).append later)

namespace Turns

variable {e₁ e' : Engine} {applied direct released ops : List Operation} {op : Operation}
  {results : List (Operation × Bool)}

/-- The first operation is a repetition. -/
theorem cons_repeated (built : Built e history) (known : e.hasApplied op.id = true)
    (repeats : e.applyRemote op none = .ok (false, e))
    (turns : Turns e e' history applied ops results direct released) :
    Turns e e' history applied (op :: ops) ((op, false) :: results) direct released where
  absorbed :=
    { built := turns.absorbed.built
      replicaId := turns.absorbed.replicaId
      undoStack := turns.absorbed.undoStack
      redoStack := turns.absorbed.redoStack
      clock := turns.absorbed.clock
      appliedFrom := fun x member =>
        (List.mem_append.mp (turns.absorbed.appliedFrom x member)).elim (List.mem_append_left _)
          fun inside => List.mem_append_right _ (List.mem_cons_of_mem _ inside)
      pendingFrom := turns.absorbed.pendingFrom.trans
        ((List.Sublist.refl _).append (List.sublist_cons_self ..))
      complete := fun x member => by
        rcases List.mem_append.mp member with waiting | offered
        · exact turns.absorbed.complete x (List.mem_append_left _ waiting)
        · rcases List.mem_cons.mp offered with rfl | later
          · exact Or.inr (built.hasApplied_mono turns.absorbed.built known)
          · exact turns.absorbed.complete x (List.mem_append_right _ later) }
  settled := turns.settled
  offered := congrArg (op :: ·) turns.offered
  split := turns.split
  inOrder := turns.inOrder
  inMessage := turns.inMessage.cons op
  fresh := turns.fresh
  own := by
    have split : repeated e (op :: ops) = op :: repeated e ops := by
      simp [repeated, repeats, known]
    rw [split]
    exact (turns.own.cons op).trans List.perm_middle.symm
  done x member := by
    rcases List.mem_cons.mp member with rfl | later
    · exact built.hasApplied_mono turns.absorbed.built known
    · exact turns.done x later
  releasedFrom x member := (turns.releasedFrom x member).imp_right (List.mem_cons_of_mem _)
  waits x member := by
    rcases List.mem_cons.mp member with same | later
    · cases same
    · exact turns.waits x later

/-- The first operation is applied, and may release others. -/
theorem cons_applied {freed : List Operation} (built : Built e history) (calm : e.Settled)
    (fresh : e.hasApplied op.id = false) (ready : e.ready op = true)
    (applies : e.applyRemote op none = .ok (false, e₁))
    (absorbed : Absorbed e e₁ history (op :: freed) (e.pending ++ [op])) (settled : e₁.Settled)
    (freedFrom : ∀ x ∈ freed, x ∈ e.pending)
    (turns : Turns e₁ e' (history ++ op :: freed) applied ops results direct released) :
    Turns e e' history (op :: freed ++ applied) (op :: ops) ((op, false) :: results)
      (op :: direct) (freed ++ released) where
  absorbed := by
    rw [List.append_cons]
    exact absorbed.trans turns.absorbed
  settled := turns.settled
  offered := congrArg (op :: ·) turns.offered
  split := by
    refine (((List.Perm.refl freed).append turns.split).cons op).trans ?_
    rw [List.cons_append]
    refine List.Perm.cons op ?_
    rw [← List.append_assoc, ← List.append_assoc]
    exact List.perm_append_comm.append_right released
  inOrder := (turns.inOrder.trans (List.sublist_append_right ..)).cons_cons op
  inMessage := turns.inMessage.cons_cons op
  fresh x member := by
    rcases List.mem_cons.mp member with rfl | later
    · refine ⟨fresh, fun waiting => ?_⟩
      rw [(calm x waiting).2] at ready
      cases ready
    · obtain ⟨unknown, absent⟩ := turns.fresh x later
      refine ⟨?_, fun waiting => ?_⟩
      · rw [Bool.eq_false_iff]
        intro known
        rw [built.hasApplied_mono absorbed.built known] at unknown
        cases unknown
      · rcases absorbed.complete x (List.mem_append_left _ waiting) with still | known
        · exact absent still
        · rw [known] at unknown
          cases unknown
  own := by
    have split : repeated e (op :: ops) = repeated e₁ ops := by
      simp [repeated, applies, fresh]
    rw [split]
    exact turns.own.cons op
  done x member := by
    rcases List.mem_cons.mp member with rfl | later
    · exact absorbed.built.hasApplied_mono turns.absorbed.built
        (absorbed.built.hasApplied_iff.mpr ⟨x, by simp, rfl⟩)
    · exact turns.done x later
  releasedFrom x member := by
    rcases List.mem_append.mp member with early | late
    · exact Or.inl (freedFrom x early)
    · rcases turns.releasedFrom x late with waiting | own
      · rcases List.mem_append.mp (absorbed.pendingFrom.subset waiting) with old | new
        · exact Or.inl old
        · -- the applied operation itself does not wait
          rw [List.mem_singleton.mp new] at waiting
          have known : e₁.hasApplied op.id = true :=
            absorbed.built.hasApplied_iff.mpr ⟨op, by simp, rfl⟩
          rw [(settled op waiting).1] at known
          cases known
      · exact Or.inr (List.mem_cons_of_mem _ own)
  waits x member := by
    rcases List.mem_cons.mp member with same | later
    · cases same
    · obtain ⟨unknown, early⟩ := turns.waits x later
      constructor
      · rw [Bool.eq_false_iff]
        intro known
        rw [built.hasApplied_mono absorbed.built known] at unknown
        cases unknown
      · rw [Bool.eq_false_iff]
        intro ready
        rw [ready_mono built absorbed.built ready] at early
        cases early

/-- The first operation has to wait. -/
theorem cons_waiting (fresh : e.hasApplied op.id = false) (early : e.ready op = false)
    (waits : e.applyRemote op none = .ok (true, { e with pending := e.pending ++ [op] }))
    (turns : Turns { e with pending := e.pending ++ [op] } e' history applied ops results direct
      released) :
    Turns e e' history applied (op :: ops) ((op, true) :: results) direct released where
  absorbed := by
    have absorbed := turns.absorbed
    rw [List.append_assoc, List.singleton_append] at absorbed
    exact ⟨absorbed.built, absorbed.replicaId, absorbed.undoStack, absorbed.redoStack,
      absorbed.clock, absorbed.appliedFrom, absorbed.pendingFrom, absorbed.complete⟩
  settled := turns.settled
  offered := congrArg (op :: ·) turns.offered
  split := turns.split
  inOrder := turns.inOrder
  inMessage := turns.inMessage
  fresh x member := ⟨(turns.fresh x member).1, fun waiting =>
    (turns.fresh x member).2 (List.mem_append_left _ waiting)⟩
  own := by
    have split : repeated e (op :: ops) =
        repeated { e with pending := e.pending ++ [op] } ops := by
      simp [repeated, waits, fresh]
    rw [split]
    exact turns.own
  done := turns.done
  releasedFrom x member := by
    rcases turns.releasedFrom x member with waiting | own
    · rcases List.mem_append.mp waiting with old | new
      · exact Or.inl old
      · rw [List.mem_singleton.mp new]
        exact Or.inr List.mem_cons_self
    · exact Or.inr (List.mem_cons_of_mem _ own)
  waits x member := by
    rcases List.mem_cons.mp member with same | later
    · obtain rfl : x = op := congrArg Prod.fst same
      exact ⟨fresh, early⟩
    · exact turns.waits x later

end Turns

theorem applyRemote_repeated {op : Operation} (known : e.hasApplied op.id = true) :
    e.applyRemote op none = .ok (false, e) := by
  rw [applyRemote, Built.recordContext_none, if_pos known]

theorem applyRemote_waits {op : Operation} (fresh : e.hasApplied op.id = false)
    (early : e.ready op = false) :
    e.applyRemote op none = .ok (true, { e with pending := e.pending ++ [op] }) := by
  rw [applyRemote, Built.recordContext_none]
  simp [fresh, early]

theorem settled_append {op : Operation} (settled : e.Settled)
    (fresh : e.hasApplied op.id = false) (early : e.ready op = false) :
    Settled { e with pending := e.pending ++ [op] } := fun x member => by
  rcases List.mem_append.mp member with inside | last
  · exact settled x inside
  · rw [List.mem_singleton.mp last]
    exact ⟨fresh, early⟩

theorem applyMessage_turns (built : Built e history) (settled : e.Settled) (ops : List Operation) :
    ∃ results e' applied direct released, applyMessage e ops = .ok (results, e') ∧
      Turns e e' history applied ops results direct released := by
  induction ops generalizing e history with
  | nil =>
      exact ⟨[], e, [], [], [], rfl, .refl built, settled, rfl, .refl _, .refl _, .refl _, nofun,
        .refl _, nofun, nofun, nofun⟩
  | cons op ops ih =>
      by_cases known : e.hasApplied op.id = true
      · have repeats := applyRemote_repeated known
        obtain ⟨results, e', applied, direct, released, ran, turns⟩ := ih built settled
        exact ⟨_, e', applied, direct, released,
          by simp [applyMessage, repeats, ran, bind, Except.bind],
          turns.cons_repeated built known repeats⟩
      · rw [Bool.not_eq_true] at known
        by_cases ready : e.ready op = true
        · obtain ⟨e₁, freed, applies, absorbed, settled₁, freedFrom⟩ :=
            built.applyRemote_fresh_spec known ready none
          obtain ⟨results, e', applied, direct, released, ran, turns⟩ := ih absorbed.built settled₁
          exact ⟨_, e', _, _, _, by simp [applyMessage, applies, ran, bind, Except.bind],
            turns.cons_applied built settled known ready applies absorbed settled₁ freedFrom⟩
        · rw [Bool.not_eq_true] at ready
          have waits := applyRemote_waits known ready
          have built₁ : Built { e with pending := e.pending ++ [op] } history :=
            built.congr rfl rfl (le_refl _)
          obtain ⟨results, e', applied, direct, released, ran, turns⟩ :=
            ih built₁ (settled_append settled known ready)
          exact ⟨_, e', applied, direct, released,
            by simp [applyMessage, waits, ran, bind, Except.bind],
            turns.cons_waiting known ready waits⟩

/-! ### What a message does not release -/

/-- Below an insert that has not been applied nothing is applied and nothing is ready. -/
theorem chain_waits {known ops : List Operation} {parent : Identifier} (built : Built e history)
    (distinct : DistinctIds known) (inside : ∀ op ∈ history, op ∈ known)
    (minted : ∀ op ∈ ops, op ∈ known) (chain : Chain (some parent) ops)
    (missing : e.hasApplied parent = false) :
    applyMessage e ops =
        .ok (ops.map fun op => (op, true), { e with pending := e.pending ++ ops }) ∧
      ∀ op ∈ ops, e.hasApplied op.id = false := by
  induction ops generalizing e parent with
  | nil => exact ⟨by simp [applyMessage], nofun⟩
  | cons op ops ih =>
      obtain ⟨under, -, rest⟩ := chain
      -- the parent would have been applied as well
      have unmet : ¬ DependencyMet history op := fun met => by
        obtain ⟨ins, member, same⟩ := met parent under
        rw [built.hasApplied_iff.mpr ⟨.insert ins, member, same⟩] at missing
        cases missing
      have fresh : e.hasApplied op.id = false := by
        rw [Bool.eq_false_iff]
        intro applied
        exact unmet (built.causal.met ((built.hasApplied_iff_mem distinct inside
          (minted op List.mem_cons_self)).mp applied))
      have early : e.ready op = false := by
        rw [Bool.eq_false_iff]
        exact fun ready => unmet (built.ready_iff.mp ready)
      have built₁ : Built { e with pending := e.pending ++ [op] } history :=
        built.congr rfl rfl (le_refl _)
      obtain ⟨later, unknown⟩ :=
        ih built₁ (fun x member => minted x (List.mem_cons_of_mem _ member)) rest fresh
      refine ⟨by simp [applyMessage, applyRemote_waits fresh early, later, bind, Except.bind],
        fun x member => ?_⟩
      rcases List.mem_cons.mp member with rfl | inRest
      · exact fresh
      · exact unknown x inRest

/-- Of a chain of inserts, nothing that has to wait is applied. -/
theorem chain_applyMessage {known ops : List Operation} {parent : Option Identifier} {e' : Engine}
    {results : List (Operation × Bool)} (built : Built e history) (distinct : DistinctIds known)
    (inside : ∀ op ∈ history, op ∈ known) (waiting : ∀ op ∈ e.pending, op ∈ known)
    (minted : ∀ op ∈ ops, op ∈ known) (chain : Chain parent ops)
    (ran : applyMessage e ops = .ok (results, e')) :
    ∀ op, (op, true) ∈ results → e'.hasApplied op.id = false := by
  induction ops generalizing e history parent results with
  | nil =>
      obtain ⟨rfl, -⟩ := by simpa [applyMessage] using ran
      rintro _ ⟨⟩
  | cons op ops ih =>
      have mintedRest : ∀ x ∈ ops, x ∈ known := fun x member =>
        minted x (List.mem_cons_of_mem _ member)
      obtain ⟨-, -, chainRest⟩ := chain
      obtain ⟨buffered, e₁, rest, first, later, rfl⟩ := applyMessage_cons ran
      obtain ⟨buffered', e₁', applied, first', absorbed, -, direct⟩ := built.applyRemote_spec op none
      obtain ⟨rfl, rfl⟩ := Prod.mk.inj (Except.ok.inj (first'.symm.trans first))
      by_cases ready : e.hasApplied op.id = true ∨ e.ready op = true
      · -- the operation is applied, and the rest hangs on it
        have offered : ∀ x ∈ e.pending ++ [op], x ∈ known := fun x member => by
          rcases List.mem_append.mp member with old | new
          · exact waiting x old
          · rw [List.mem_singleton.mp new]
            exact minted op List.mem_cons_self
        have unbuffered : buffered' = false := unbuffered_of_found ready first
        have tail := ih absorbed.built (fun x member => by
            rcases List.mem_append.mp member with old | new
            · exact inside x old
            · exact offered x (absorbed.appliedFrom x new))
          (fun x member => offered x (absorbed.pendingFrom.subset member)) mintedRest chainRest later
        intro x member
        rcases List.mem_cons.mp member with same | inRest
        · rw [unbuffered] at same
          cases same
        · exact tail x inRest
      · -- the operation waits, and so does everything under it
        rw [not_or, Bool.not_eq_true, Bool.not_eq_true] at ready
        rw [applyRemote_waits ready.1 ready.2] at first
        obtain ⟨rfl, rfl⟩ := Prod.mk.inj (Except.ok.inj first)
        have built₁ : Built { e with pending := e.pending ++ [op] } history :=
          built.congr rfl rfl (le_refl _)
        obtain ⟨all, unknown⟩ := chain_waits built₁ distinct inside mintedRest chainRest ready.1
        obtain ⟨rfl, rfl⟩ := Prod.mk.inj (Except.ok.inj (all.symm.trans later))
        intro x member
        rcases List.mem_cons.mp member with same | inRest
        · obtain rfl : x = op := congrArg Prod.fst same
          exact ready.1
        · obtain ⟨y, inOps, same⟩ := List.mem_map.mp inRest
          obtain rfl : y = x := congrArg Prod.fst same
          exact unknown y inOps

/-- Without an insert in the message, no insert is applied. -/
theorem no_insert {e' : Engine} {applied ops : List Operation} (built : Built e history)
    (settled : e.Settled) (absorbed : Absorbed e e' history applied (e.pending ++ ops))
    (without : ∀ op ∈ ops, op.insertedId = none) : ∀ op ∈ applied, op.insertedId = none := by
  have along : ∀ first last, applied = first ++ last → ∀ op ∈ first, op.insertedId = none := by
    intro first
    induction first using List.reverseRecOn with
    | nil => exact fun last same op member => nomatch member
    | append_singleton first op ih =>
        intro last same x member
        have before := ih (op :: last) (by rw [same, List.append_assoc, List.singleton_append])
        rcases List.mem_append.mp member with early | here
        · exact before x early
        rw [List.mem_singleton.mp here]
        have inApplied : op ∈ applied := by
          rw [same]
          simp
        rcases List.mem_append.mp (absorbed.appliedFrom op inApplied) with waiting | offered
        · -- the dependency of a waiting operation is missing, and no insert came before
          have causal := absorbed.built.causal
          rw [same, ← List.append_assoc, ← List.append_assoc] at causal
          have met := causal.of_append.of_snoc.2
          have unmet := (settled op waiting).2
          rw [Bool.eq_false_iff, ne_eq, built.ready_iff] at unmet
          refine absurd (fun d named => ?_) unmet
          obtain ⟨ins, inserted, id⟩ := met d named
          refine ⟨ins, (List.mem_append.mp inserted).resolve_right fun late => ?_, id⟩
          cases before _ late
        · exact without op offered
  intro op member
  exact along applied [] (List.append_nil _).symm op member

/-- An operation of a message that has to wait is not released by the same message. -/
theorem applyMessage_waits {known : List Operation} {e' : Engine}
    {applied direct released : List Operation} {results : List (Operation × Bool)} {msg : OpsMessage}
    (built : Built e history) (settled : e.Settled) (distinct : DistinctIds known)
    (inside : ∀ op ∈ history, op ∈ known) (waiting : ∀ op ∈ e.pending, op ∈ known)
    (minted : ∀ op ∈ toOperations msg, op ∈ known)
    (ran : applyMessage e (toOperations msg) = .ok (results, e'))
    (turns : Turns e e' history applied (toOperations msg) results direct released) :
    ∀ op, (op, true) ∈ results → e'.hasApplied op.id = false := by
  rcases toOperations_shape msg with ⟨parent, chain⟩ | without
  · exact chain_applyMessage built distinct inside waiting minted chain ran
  · intro op member
    rw [Bool.eq_false_iff]
    intro known'
    obtain ⟨fresh, early⟩ := turns.waits op member
    have noInsert := no_insert built settled turns.absorbed without
    have inOps : op ∈ toOperations msg := by
      rw [← turns.offered]
      exact List.mem_map_of_mem member
    have all : ∀ x ∈ history ++ applied, x ∈ known := fun x inHistory => by
      rcases List.mem_append.mp inHistory with old | new
      · exact inside x old
      · rcases List.mem_append.mp (turns.absorbed.appliedFrom x new) with before | offered
        · exact waiting x before
        · exact minted x offered
    have here := (turns.absorbed.built.hasApplied_iff_mem distinct all (minted op inOps)).mp known'
    -- its dependency was inserted before the message
    have met : DependencyMet history op := fun d named => by
      obtain ⟨ins, inserted, same⟩ := turns.absorbed.built.causal.met here d named
      refine ⟨ins, (List.mem_append.mp inserted).resolve_right fun late => ?_, same⟩
      cases noInsert _ late
    rw [built.ready_iff.mpr met] at early
    cases early

/-! ### What left the buffer -/

/-- A map keyed by identifiers keeps the first place of every operation. -/
theorem foldl_setById_spec (entries ops : List Operation) (distinct : DistinctIds (entries ++ ops))
    (nodup : (entries.map Operation.id).Nodup) :
    ∃ new, ops.foldl setById entries = entries ++ new ∧ new.Sublist ops ∧
      ((entries ++ new).map Operation.id).Nodup ∧ ∀ op ∈ ops, op ∈ entries ++ new := by
  induction ops generalizing entries with
  | nil => exact ⟨[], (List.append_nil _).symm, .refl _, by rwa [List.append_nil], nofun⟩
  | cons op ops ih =>
      by_cases known : op ∈ entries
      · -- the entry is overwritten by the same operation
        have same : setById entries op = entries := by
          have found : (entries.any fun x => x.id = op.id) = true :=
            List.any_eq_true.mpr ⟨op, known, by simp⟩
          rw [setById, if_pos found]
          refine (List.map_congr_left fun x member => ?_).trans (List.map_id _)
          split_ifs with named
          · exact (distinct x (List.mem_append_left _ member) op
              (List.mem_append_left _ known) named).symm
          · rfl
        obtain ⟨new, folded, sub, unique, all⟩ := ih entries
          (distinct.subset fun x member => by
            rcases List.mem_append.mp member with old | later
            · exact List.mem_append_left _ old
            · exact List.mem_append_right _ (List.mem_cons_of_mem _ later)) nodup
        refine ⟨new, by rw [List.foldl_cons, same, folded], sub.cons op, unique, fun x member => ?_⟩
        rcases List.mem_cons.mp member with rfl | later
        · exact List.mem_append_left _ known
        · exact all x later
      · have fresh : (entries.any fun x => x.id = op.id) = false := by
          rw [List.any_eq_false]
          intro x member
          simp only [decide_eq_true_eq]
          intro named
          exact known (distinct x (List.mem_append_left _ member) op
            (List.mem_append_right _ List.mem_cons_self) named ▸ member)
        have grown : setById entries op = entries ++ [op] := by
          rw [setById, fresh]
          rfl
        have nodup' : ((entries ++ [op]).map Operation.id).Nodup := by
          rw [List.map_append, List.nodup_append]
          refine ⟨nodup, List.nodup_singleton _, ?_⟩
          rintro id old id' last rfl
          obtain ⟨x, member, named⟩ := List.mem_map.mp old
          rw [List.map_singleton, List.mem_singleton] at last
          exact known (distinct x (List.mem_append_left _ member) op
            (List.mem_append_right _ List.mem_cons_self) (named.trans last) ▸ member)
        obtain ⟨new, folded, sub, unique, all⟩ := ih (entries ++ [op])
          (by rwa [List.append_assoc, List.singleton_append]) nodup'
        refine ⟨op :: new, ?_, sub.cons_cons op, ?_, fun x member => ?_⟩
        · rw [List.foldl_cons, grown, folded, List.append_assoc, List.singleton_append]
        · rwa [List.append_assoc, List.singleton_append] at unique
        · rcases List.mem_cons.mp member with rfl | later
          · simp
          · simpa using all x later

theorem sideEffectResolved_spec {before : List Operation} (distinct : DistinctIds before)
    (after : List Operation) :
    (sideEffectResolved before after).Sublist before ∧
      ((sideEffectResolved before after).map Operation.id).Nodup ∧
      ∀ op, op ∈ sideEffectResolved before after ↔
        op ∈ before ∧ ∀ x ∈ after, x.id ≠ op.id := by
  obtain ⟨new, folded, sub, unique, all⟩ :=
    foldl_setById_spec [] before (by rwa [List.nil_append]) List.nodup_nil
  rw [List.nil_append] at folded unique all
  rw [sideEffectResolved, folded]
  refine ⟨List.filter_sublist.trans sub, unique.sublist (List.filter_sublist.map _), fun op => ?_⟩
  rw [List.mem_filter]
  have gone : (!after.any fun x => decide (x.id = op.id)) = true ↔ ∀ x ∈ after, x.id ≠ op.id := by
    simp
  rw [gone]
  exact ⟨fun ⟨member, absent⟩ => ⟨sub.subset member, absent⟩,
    fun ⟨member, absent⟩ => ⟨all op member, absent⟩⟩

/-! ### What a message supplies -/

/-- The identifiers of the nodes that a message brings into the document, itself or by releasing
waiting inserts. -/
inductive Supplied (e : Engine) (ops : List Operation) : Identifier → Prop where
  | root {ins : InsertOperation} (offered : .insert ins ∈ e.pending ++ ops)
      (top : ins.parent = none) : Supplied e ops ins.id
  | attached {ins : InsertOperation} {p : Identifier} (offered : .insert ins ∈ e.pending ++ ops)
      (under : ins.parent = some p) (present : e.tree.hasIdentifier p = true) :
      Supplied e ops ins.id
  | chained {ins : InsertOperation} {p : Identifier} (offered : .insert ins ∈ e.pending ++ ops)
      (under : ins.parent = some p) (supplied : Supplied e ops p) : Supplied e ops ins.id

/-- Every insert that is applied is supplied. -/
theorem supplied_of_applied {e' : Engine} {applied ops : List Operation} (built : Built e history)
    (absorbed : Absorbed e e' history applied (e.pending ++ ops)) {ins : InsertOperation}
    (member : .insert ins ∈ applied) : Supplied e ops ins.id := by
  have along : ∀ first last, applied = first ++ last → ∀ ins : InsertOperation,
      .insert ins ∈ first → Supplied e ops ins.id := by
    intro first
    induction first using List.reverseRecOn with
    | nil => exact fun last same ins inside => nomatch inside
    | append_singleton first op ih =>
        intro last same ins inside
        have before := ih (op :: last) (by rw [same, List.append_assoc, List.singleton_append])
        rcases List.mem_append.mp inside with early | here
        · exact before ins early
        obtain rfl : .insert ins = op := List.mem_singleton.mp here
        have offered := absorbed.appliedFrom (.insert ins) (by simp [same])
        have causal := absorbed.built.causal
        rw [same, ← List.append_assoc, ← List.append_assoc] at causal
        have met := causal.of_append.of_snoc.2
        cases under : ins.parent with
        | none => exact .root offered under
        | some p =>
            obtain ⟨parent, inserted, rfl⟩ := met p under
            rcases List.mem_append.mp inserted with old | new
            · exact .attached offered under (built.hasIdentifier_iff.mpr ⟨parent, old, rfl⟩)
            · exact .chained offered under (before parent new)
  exact along applied [] (List.append_nil _).symm ins member

/-! ### The accounts of one message -/

/-- What is known about the operations of a coordinator's engine and of a message to it. -/
structure Known (known : List Operation) (e : Engine) (history ops : List Operation) : Prop where
  built : Built e history
  settled : e.Settled
  distinct : DistinctIds known
  applied : ∀ op ∈ history, op ∈ known
  waiting : ∀ op ∈ e.pending, op ∈ known
  minted : ∀ op ∈ ops, op ∈ known

theorem Known.offered {known ops : List Operation} (holds : Known known e history ops) :
    ∀ op ∈ e.pending ++ ops, op ∈ known := fun op member =>
  (List.mem_append.mp member).elim (holds.waiting op) (holds.minted op)

theorem Known.history_known {known ops applied : List Operation} {e' : Engine}
    (holds : Known known e history ops)
    (absorbed : Absorbed e e' history applied (e.pending ++ ops)) :
    ∀ op ∈ history ++ applied, op ∈ known := fun op member => by
  rcases List.mem_append.mp member with old | new
  · exact holds.applied op old
  · exact holds.offered op (absorbed.appliedFrom op new)

/-- Among the known operations, the applied ones are those of the new history. -/
theorem Known.hasApplied_iff {known ops applied : List Operation} {e' : Engine}
    (holds : Known known e history ops)
    (absorbed : Absorbed e e' history applied (e.pending ++ ops)) {op : Operation}
    (member : op ∈ known) : e'.hasApplied op.id = true ↔ op ∈ history ++ applied :=
  absorbed.built.hasApplied_iff_mem holds.distinct (holds.history_known absorbed) member

namespace Turns

variable {known ops applied direct released : List Operation} {e' : Engine}
  {results : List (Operation × Bool)}

/-- Nothing that was applied before the message is applied again. -/
theorem applied_fresh (turns : Turns e e' history applied ops results direct released)
    {op : Operation} (member : op ∈ applied) : op ∉ history := fun old => by
  have nodup := turns.absorbed.built.nodup.of_map
  exact (List.nodup_append.mp nodup).2.2 op old op member rfl

/-- What was released is what had been waiting and is applied now. -/
theorem released_iff (holds : Known known e history ops)
    (turns : Turns e e' history applied ops results direct released)
    (stays : ∀ op, (op, true) ∈ results → e'.hasApplied op.id = false) (op : Operation) :
    op ∈ released ↔ op ∈ e.pending ∧ e'.hasApplied op.id = true := by
  constructor
  · intro member
    have inApplied : op ∈ applied := turns.split.mem_iff.mpr (List.mem_append_right _ member)
    have done : e'.hasApplied op.id = true :=
      turns.absorbed.built.hasApplied_iff.mpr ⟨op, List.mem_append_right _ inApplied, rfl⟩
    refine ⟨(turns.releasedFrom op member).resolve_right fun own => ?_, done⟩
    rw [stays op own] at done
    cases done
  · rintro ⟨waiting, done⟩
    rw [holds.hasApplied_iff turns.absorbed (holds.waiting op waiting)] at done
    have inApplied : op ∈ applied := (List.mem_append.mp done).resolve_left fun old => by
      have unknown := (holds.settled op waiting).1
      rw [holds.built.hasApplied_iff.mpr ⟨op, old, rfl⟩] at unknown
      cases unknown
    exact (List.mem_append.mp (turns.split.mem_iff.mp inApplied)).resolve_left fun fresh =>
      (turns.fresh op fresh).2 waiting

/-- Of the message's own operations, the unbuffered ones are those that are applied now. -/
theorem unbuffered_iff (turns : Turns e e' history applied ops results direct released)
    (stays : ∀ op, (op, true) ∈ results → e'.hasApplied op.id = false) {op : Operation}
    (member : op ∈ ops) : op ∈ unbuffered results ↔ e'.hasApplied op.id = true := by
  refine ⟨turns.done op, fun done => ?_⟩
  rw [← turns.offered] at member
  obtain ⟨⟨x, buffered⟩, inside, same⟩ := List.mem_map.mp member
  obtain rfl : x = op := same
  cases buffered with
  | false => exact mem_unbuffered.mpr inside
  | true =>
      rw [stays x inside] at done
      cases done

theorem resolved_iff (holds : Known known e history ops)
    (turns : Turns e e' history applied ops results direct released) (op : Operation) :
    op ∈ sideEffectResolved e.pending e'.pending ↔
      op ∈ e.pending ∧ e'.hasApplied op.id = true := by
  rw [(sideEffectResolved_spec (holds.distinct.subset holds.waiting) e'.pending).2.2 op]
  refine and_congr_right fun waiting => ⟨fun gone => ?_, fun done x still same => ?_⟩
  · exact (turns.absorbed.complete op (List.mem_append_left _ waiting)).resolve_left fun still =>
      gone op still rfl
  · rw [← same, (turns.settled x still).1] at done
    cases done

/-- What left the buffer was released. -/
theorem resolved_perm (holds : Known known e history ops)
    (turns : Turns e e' history applied ops results direct released)
    (stays : ∀ op, (op, true) ∈ results → e'.hasApplied op.id = false) :
    (sideEffectResolved e.pending e'.pending).Perm released := by
  have nodup : released.Nodup := by
    have unique := (List.nodup_append.mp turns.absorbed.built.nodup.of_map).2.1
    rw [turns.split.nodup_iff] at unique
    exact (List.nodup_append.mp unique).2.1
  refine (List.perm_ext_iff_of_nodup ?_ nodup).mpr fun op => ?_
  · exact (sideEffectResolved_spec (holds.distinct.subset holds.waiting) e'.pending).2.1.of_map
  · rw [turns.resolved_iff holds, turns.released_iff holds stays]

/-- Without releases, the applied operations are the message's own new ones, in their order. -/
theorem applied_eq (holds : Known known e history ops)
    (turns : Turns e e' history applied ops results direct released) (none : released = [])
    (nodup : (unbuffered results).Nodup) :
    applied = (unbuffered results).filter fun op => decide (op ∉ history) := by
  subst none
  have split := turns.split
  rw [List.append_nil] at split
  obtain rfl : direct = applied := turns.inOrder.eq_of_length split.symm.length_eq
  have new : direct.filter (fun op => decide (op ∉ history)) = direct :=
    List.filter_eq_self.mpr fun op member => decide_eq_true (turns.applied_fresh member)
  have sub := turns.inMessage.filter fun op => decide (op ∉ history)
  rw [new] at sub
  refine sub.eq_of_length (List.Perm.length_eq ?_)
  refine (List.perm_ext_iff_of_nodup (nodup.sublist turns.inMessage) (nodup.filter _)).mpr fun op =>
    ⟨fun member => sub.subset member, fun member => ?_⟩
  obtain ⟨own, unknown⟩ := List.mem_filter.mp member
  have inOps : op ∈ ops := by
    rw [← turns.offered]
    exact List.mem_map_of_mem (mem_unbuffered.mp own)
  exact (List.mem_append.mp ((holds.hasApplied_iff turns.absorbed (holds.minted op inOps)).mp
    (turns.done op own))).resolve_left (of_decide_eq_true unknown)

/-- The unbuffered and the resolved operations are the applied ones and the repetitions. -/
theorem accounted (holds : Known known e history ops)
    (turns : Turns e e' history applied ops results direct released)
    (stays : ∀ op, (op, true) ∈ results → e'.hasApplied op.id = false) :
    (unbuffered results ++ sideEffectResolved e.pending e'.pending).Perm
      (applied ++ repeated e ops) := by
  have resolved := turns.resolved_perm holds stays
  calc unbuffered results ++ sideEffectResolved e.pending e'.pending
      _ ~ (direct ++ repeated e ops) ++ released := turns.own.append resolved
      _ ~ direct ++ (released ++ repeated e ops) := by
        rw [List.append_assoc]
        exact List.perm_append_comm.append_left direct
      _ ~ applied ++ repeated e ops := by
        rw [← List.append_assoc]
        exact (turns.split.append_right _).symm

end Turns

/-! ### Origins -/

/-- The session of every waiting operation is known. -/
def Covered (c : Coordinator) : Prop :=
  ∀ op ∈ c.engine.pending, ∃ session, c.pendingOpOrigin op.id = some session

theorem recordOrigins_apply (origins : Identifier → Option Nat) (session : Nat)
    (results : List (Operation × Bool)) (id : Identifier) :
    recordOrigins origins session results id =
      if ∃ r ∈ results, r.2 = true ∧ r.1.id = id then some session else origins id := by
  induction results using List.reverseRecOn with
  | nil => simp [recordOrigins]
  | append_singleton results r ih =>
      rw [recordOrigins] at ih ⊢
      rw [List.foldl_append, List.foldl_cons, List.foldl_nil]
      obtain ⟨op, buffered⟩ := r
      cases buffered with
      | false =>
          rw [if_neg Bool.false_ne_true, ih]
          exact if_congr (by simp) rfl rfl
      | true =>
          rw [if_pos rfl, Function.update_apply]
          by_cases here : id = op.id
          · subst here
            rw [if_pos rfl, if_pos ⟨(op, true), by simp, rfl, rfl⟩]
          · have other : op.id ≠ id := fun same => here same.symm
            rw [if_neg here, ih]
            exact if_congr (by simp [other]) rfl rfl

theorem dropOrigins_apply (origins : Identifier → Option Nat) (resolved : List Operation)
    (id : Identifier) : dropOrigins origins resolved id =
      if ∃ op ∈ resolved, op.id = id then none else origins id := by
  induction resolved using List.reverseRecOn with
  | nil => simp [dropOrigins]
  | append_singleton resolved op ih =>
      rw [dropOrigins] at ih ⊢
      rw [List.foldl_append, List.foldl_cons, List.foldl_nil, Function.update_apply]
      by_cases here : id = op.id
      · subst here
        simp
      · have other : op.id ≠ id := fun same => here same.symm
        rw [if_neg here, ih]
        congr 1
        simp [other]

/-! ### The coordinator after a message -/

/-- What a message does: `own` of its operations and `released` ones from the buffer are numbered,
relayed and enqueued, in this order; these are the applied operations and the repeated ones. -/
structure Intake (c c' : Coordinator) (history applied : List Operation) (session : Nat)
    (ops own released : List Operation) (relays : List Relay) : Prop where
  absorbed : Absorbed c.engine c'.engine history applied (c.engine.pending ++ ops)
  settled : c'.engine.Settled
  ownFrom : own.Sublist ops
  own_iff : ∀ op ∈ ops, op ∈ own ↔ c'.engine.hasApplied op.id = true
  releasedFrom : released.Sublist c.engine.pending
  released_iff : ∀ op, op ∈ released ↔
    op ∈ c.engine.pending ∧ c'.engine.hasApplied op.id = true
  accounted : (own ++ released).Perm (applied ++ repeated c.engine ops)
  inOrder : released = [] → own.Nodup → applied = own.filter fun op => decide (op ∉ history)
  relayed : relays.flatMap Relay.ops = own ++ released
  numbered : Numbered c.queue.currentSeq relays c'.queue.currentSeq
  queue : c'.queue = c.queue.enqueueAll (relays.map fun r => (r.origin, r.ops))
  nonempty : ∀ r ∈ relays, r.ops ≠ []
  origin : ∀ r ∈ relays, (r.origin = session ∧ ∀ op ∈ r.ops, op ∈ own) ∨
    ∃ op ∈ released, r.ops = [op] ∧ c.pendingOpOrigin op.id = some r.origin
  origins : ∀ id s, c'.pendingOpOrigin id = some s → c.pendingOpOrigin id = some s ∨
    s = session ∧ ∃ op ∈ ops, op.id = id
  covered : Covered c'

namespace Intake

variable {known ops own released applied : List Operation} {c c' : Coordinator} {session : Nat}
  {relays : List Relay}

/-- What is finalized has been applied. -/
theorem mem_history (holds : Known known c.engine history ops)
    (intake : Intake c c' history applied session ops own released relays) :
    ∀ op ∈ own ++ released, op ∈ history ++ applied := fun op member => by
  rcases List.mem_append.mp member with mine | freed
  · have offered := intake.ownFrom.subset mine
    exact (holds.hasApplied_iff intake.absorbed (holds.minted op offered)).mp
      ((intake.own_iff op offered).mp mine)
  · obtain ⟨waiting, done⟩ := (intake.released_iff op).mp freed
    exact (holds.hasApplied_iff intake.absorbed (holds.waiting op waiting)).mp done

/-- What is applied is finalized. -/
theorem finalized (intake : Intake c c' history applied session ops own released relays) :
    ∀ op ∈ applied, op ∈ own ++ released := fun _ member =>
  intake.accounted.mem_iff.mpr (List.mem_append_left _ member)

theorem fresh (intake : Intake c c' history applied session ops own released relays) :
    ∀ op ∈ applied, op ∉ history := fun op member old =>
  (List.nodup_append.mp intake.absorbed.built.nodup.of_map).2.2 op old op member rfl

/-- What is released is applied by this message. -/
theorem released_applied (holds : Known known c.engine history ops)
    (intake : Intake c c' history applied session ops own released relays) :
    ∀ op ∈ released, op ∈ applied := fun op freed => by
  refine (List.mem_append.mp (intake.mem_history holds op
    (List.mem_append_right _ freed))).resolve_left fun old => ?_
  have unknown := (holds.settled op (intake.releasedFrom.subset freed)).1
  rw [holds.built.hasApplied_iff.mpr ⟨op, old, rfl⟩] at unknown
  cases unknown

end Intake

section Intake

variable {known ops applied direct released : List Operation} {e' : Engine}
  {results : List (Operation × Bool)} {c : Coordinator}

/-- The origins after a message cover what still waits. -/
theorem covered_after (covered : Covered c)
    (turns : Turns c.engine e' history applied ops results direct released) (session : Nat)
    {resolved : List Operation} (gone : ∀ op ∈ resolved, e'.hasApplied op.id = true) :
    ∀ op ∈ e'.pending, ∃ s,
      dropOrigins (recordOrigins c.pendingOpOrigin session results) resolved op.id = some s := by
  intro op waiting
  have unknown := (turns.settled op waiting).1
  have kept : ¬ ∃ x ∈ resolved, x.id = op.id := by
    rintro ⟨x, member, same⟩
    rw [← same, gone x member] at unknown
    cases unknown
  rw [dropOrigins_apply, if_neg kept, recordOrigins_apply]
  split_ifs with recorded
  · exact ⟨session, rfl⟩
  · rcases List.mem_append.mp (turns.absorbed.pendingFrom.subset waiting) with old | own
    · exact covered op old
    · -- the message's own waiting operation was recorded
      rw [← turns.offered] at own
      obtain ⟨⟨x, buffered⟩, inside, same⟩ := List.mem_map.mp own
      obtain rfl : x = op := same
      cases buffered with
      | true => exact absurd ⟨(x, true), inside, rfl, rfl⟩ recorded
      | false =>
          rw [turns.done x (mem_unbuffered.mpr inside)] at unknown
          cases unknown

theorem flatMap_toFinalize (origins : Identifier → Option Nat) (session : Nat)
    (results : List (Operation × Bool)) {resolved : List Operation}
    (covered : ∀ op ∈ resolved, ∃ s, origins op.id = some s) :
    (toFinalize origins session results resolved).flatMap Prod.snd =
      unbuffered results ++ resolved := by
  rw [toFinalize, List.flatMap_append]
  congr 1
  · rw [List.flatMap_map, unbuffered, ← List.flatMap_singleton' (List.map _ _), List.flatMap_map]
  · induction resolved with
    | nil => rfl
    | cons op resolved ih =>
        obtain ⟨s, named⟩ := covered op List.mem_cons_self
        rw [List.filterMap_cons, named]
        simp only [Option.map_some, List.flatMap_cons]
        rw [ih fun x member => covered x (List.mem_cons_of_mem _ member)]
        rfl

/-- The sessions of the batches that a mixed message is finalized in. -/
theorem origin_toFinalize (stays : ∀ op, (op, true) ∈ results → e'.hasApplied op.id = false) (session : Nat)
    {resolved : List Operation} (gone : ∀ op ∈ resolved, e'.hasApplied op.id = true)
    {batch : Nat × List Operation} (member : batch ∈ toFinalize
      (recordOrigins c.pendingOpOrigin session results) session results resolved) :
    (batch.1 = session ∧ ∀ op ∈ batch.2, op ∈ unbuffered results) ∨
      ∃ op ∈ resolved, batch.2 = [op] ∧ c.pendingOpOrigin op.id = some batch.1 := by
  rcases List.mem_append.mp member with own | freed
  · obtain ⟨r, inside, rfl⟩ := List.mem_map.mp own
    refine Or.inl ⟨rfl, fun op only => ?_⟩
    rw [List.mem_singleton.mp only]
    exact List.mem_map_of_mem inside
  · obtain ⟨op, inside, found⟩ := List.mem_filterMap.mp freed
    obtain ⟨s, named, rfl⟩ := Option.map_eq_some_iff.mp found
    refine Or.inr ⟨op, inside, rfl, ?_⟩
    -- this message recorded no origin for an operation that is applied now
    have older : ¬ ∃ r ∈ results, r.2 = true ∧ r.1.id = op.id := by
      rintro ⟨⟨x, buffered⟩, recorded, rfl, same⟩
      have unknown := stays x recorded
      simp only at same
      rw [same, gone op inside] at unknown
      cases unknown
    rwa [recordOrigins_apply, if_neg older] at named

/-- A new origin is the session of this message. -/
theorem origins_after (session : Nat) (origins : Identifier → Option Nat)
    (offered : results.map Prod.fst = ops) {id : Identifier} {s : Nat}
    (named : recordOrigins origins session results id = some s) :
    origins id = some s ∨ s = session ∧ ∃ op ∈ ops, op.id = id := by
  rw [recordOrigins_apply] at named
  split_ifs at named with recorded
  · obtain ⟨r, member, -, same⟩ := recorded
    exact Or.inr ⟨(Option.some.inj named).symm, r.1, offered ▸ List.mem_map_of_mem member, same⟩
  · exact Or.inl named

/-- Finalizing batches, with everything that the finalization leaves as it is. -/
theorem intake_finalize {c₁ : Coordinator} {own resolved : List Operation} {session nowMs : Nat}
    {batches : List (Nat × List Operation)} (absorbed : Absorbed c.engine c₁.engine history applied
      (c.engine.pending ++ ops)) (settled : c₁.engine.Settled) (ownFrom : own.Sublist ops)
    (own_iff : ∀ op ∈ ops, op ∈ own ↔ c₁.engine.hasApplied op.id = true)
    (resolvedFrom : resolved.Sublist c.engine.pending)
    (resolved_iff : ∀ op, op ∈ resolved ↔
      op ∈ c.engine.pending ∧ c₁.engine.hasApplied op.id = true)
    (accounted : (own ++ resolved).Perm (applied ++ repeated c.engine ops))
    (inOrder : resolved = [] → own.Nodup → applied = own.filter fun op => decide (op ∉ history))
    (queue : c₁.queue = c.queue) (covered : Covered c₁)
    (relayed : batches.flatMap Prod.snd = own ++ resolved)
    (nonempty : ∀ batch ∈ batches, batch.2 ≠ [])
    (origin : ∀ batch ∈ batches, (batch.1 = session ∧ ∀ op ∈ batch.2, op ∈ own) ∨
      ∃ op ∈ resolved, batch.2 = [op] ∧ c.pendingOpOrigin op.id = some batch.1)
    (origins : ∀ id s, c₁.pendingOpOrigin id = some s → c.pendingOpOrigin id = some s ∨
      s = session ∧ ∃ op ∈ ops, op.id = id) :
    Intake c (finalize nowMs c₁ batches).1 history applied session ops own resolved
      (finalize nowMs c₁ batches).2 := by
  obtain ⟨contexts, final⟩ := finalize_eq nowMs c₁ batches
  obtain ⟨same, numbered⟩ := finalize_relays nowMs c₁ batches
  have inBatches : ∀ r ∈ (finalize nowMs c₁ batches).2, (r.origin, r.ops) ∈ batches := by
    intro r member
    rw [← same]
    exact List.mem_map_of_mem member
  rw [queue] at numbered
  refine ⟨?_, ?_, ownFrom, fun op member => ?_, resolvedFrom, fun op => ?_, accounted, inOrder, ?_,
    numbered, ?_, fun r member => nonempty _ (inBatches r member), fun r member =>
    origin _ (inBatches r member), ?_, ?_⟩
  · rw [final]
    exact absorbed.congr c.engine.deleteContext rfl rfl
  · rw [final]
    exact settled
  · rw [final]
    exact own_iff op member
  · rw [final]
    exact resolved_iff op
  · have flat := congrArg (List.flatMap Prod.snd) same
    rw [List.flatMap_map] at flat
    exact flat.trans relayed
  · rw [same, final, queue]
  · rw [final]
    exact origins
  · rw [final]
    exact covered

/-- The whole effect of one message. -/
theorem processIncomingOperation_intake {msg : OpsMessage} (session nowMs : Nat)
    (holds : Known known c.engine history (toOperations msg)) (covered : Covered c) :
    ∃ c' relays applied own released,
      processIncomingOperation c session (toOperations msg) nowMs = .ok (c', relays) ∧
      Intake c c' history applied session (toOperations msg) own released relays := by
  by_cases nothing : toOperations msg = []
  · refine ⟨c, [], [], [], [], by rw [processIncomingOperation, if_pos nothing], ?_⟩
    rw [nothing]
    refine ⟨.refl holds.built, holds.settled, .refl _, ?_, List.nil_sublist _,
      fun op => ⟨?_, fun held => ?_⟩, .refl _, fun _ _ => rfl, rfl, rfl, rfl, ?_, ?_,
      fun _ _ named => Or.inl named, covered⟩
    · rintro _ ⟨⟩
    · rintro ⟨⟩
    · have done := held.2
      rw [(holds.settled op held.1).1] at done
      cases done
    · rintro _ ⟨⟩
    · rintro _ ⟨⟩
  obtain ⟨results, e', applied, direct, released, ran, turns⟩ :=
    applyMessage_turns holds.built holds.settled (toOperations msg)
  have stays := applyMessage_waits holds.built holds.settled holds.distinct holds.applied
    holds.waiting holds.minted ran turns
  have resolved_iff := turns.resolved_iff holds
  obtain ⟨resolvedFrom, -, -⟩ :=
    sideEffectResolved_spec (holds.distinct.subset holds.waiting) e'.pending
  have accounted := turns.accounted holds stays
  have inOrder : sideEffectResolved c.engine.pending e'.pending = [] → (unbuffered results).Nodup →
      applied = (unbuffered results).filter fun op => decide (op ∉ history) := fun none nodup => by
    have same := turns.resolved_perm holds stays
    rw [none, List.nil_perm] at same
    exact turns.applied_eq holds same nodup
  have gone : ∀ op ∈ sideEffectResolved c.engine.pending e'.pending,
      e'.hasApplied op.id = true := fun op member => ((resolved_iff op).mp member).2
  have ownFrom : (unbuffered results).Sublist (toOperations msg) := by
    rw [← turns.offered]
    exact List.filter_sublist.map Prod.fst
  have kept := covered_after covered turns session gone
  rw [processIncomingOperation, if_neg nothing, ran]
  simp only [bind, Except.bind]
  by_cases fast : ((results.all fun r => !r.2) &&
      (sideEffectResolved c.engine.pending e'.pending).isEmpty) = true
  · rw [if_pos fast]
    rw [Bool.and_eq_true, List.all_eq_true, List.isEmpty_iff] at fast
    obtain ⟨all, none⟩ := fast
    have every : unbuffered results = toOperations msg := by
      rw [unbuffered, List.filter_eq_self.mpr all, turns.offered]
    set c₁ : Coordinator := { c with
      engine := e', pendingOpOrigin := recordOrigins c.pendingOpOrigin session results }
    refine ⟨(finalize nowMs c₁ [(session, toOperations msg)]).1,
      (finalize nowMs c₁ [(session, toOperations msg)]).2, applied, unbuffered results, _, rfl,
      intake_finalize turns.absorbed turns.settled ownFrom
        (fun op member => turns.unbuffered_iff stays member) resolvedFrom resolved_iff accounted
        inOrder rfl (fun op waiting => ?_) ?_ (fun batch only => ?_) (fun batch only => ?_)
        fun id s named => origins_after session _ turns.offered named⟩
    · have found := kept op waiting
      rwa [none] at found
    · rw [none, List.append_nil, every]
      simp
    · rw [List.mem_singleton.mp only]
      exact nothing
    · rw [List.mem_singleton.mp only, every]
      exact Or.inl ⟨rfl, fun op member => member⟩
  · rw [if_neg fast]
    refine ⟨_, _, applied, unbuffered results, _, rfl,
      intake_finalize turns.absorbed turns.settled ownFrom
        (fun op member => turns.unbuffered_iff stays member) resolvedFrom resolved_iff accounted
        inOrder rfl kept ?_ (fun batch member => ?_) (fun batch member =>
        origin_toFinalize stays session gone member) fun id s named => ?_⟩
    · refine flatMap_toFinalize _ _ _ fun op member => ?_
      obtain ⟨waiting, done⟩ := (resolved_iff op).mp member
      obtain ⟨s, named⟩ := covered op waiting
      rw [recordOrigins_apply]
      split_ifs
      · exact ⟨session, rfl⟩
      · exact ⟨s, named⟩
    · rcases List.mem_append.mp member with own | freed
      · obtain ⟨r, -, rfl⟩ := List.mem_map.mp own
        exact List.cons_ne_nil _ _
      · obtain ⟨op, -, found⟩ := List.mem_filterMap.mp freed
        obtain ⟨s, -, rfl⟩ := Option.map_eq_some_iff.mp found
        exact List.cons_ne_nil _ _
    · simp only at named
      rw [dropOrigins_apply] at named
      split_ifs at named
      exact origins_after session _ turns.offered named

end Intake

end Coordinator

end ConfluenceEditor
