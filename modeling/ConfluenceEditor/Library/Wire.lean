/-
Readers and writers of byte strings.

A `Reader` takes a value off the front of the bytes it has left, a `Writer` appends bytes to those it
wrote before; both may fail. `Codes w p a` says that `p` reads back the value `a` from what `w`
writes, whatever stands behind it, so that a round trip is proved field by field: `Codes.bind` puts
two fields in sequence and `Codes.each` a list of them behind its length. `Yields p P` says that `p`
returns only values with the property `P`, and `Within p q` that `q` refuses no more than `p` does;
`Refuses w p` says that `p` refuses what `w` writes, and `Requires w P` that `w` fails unless `P`.
-/

import Mathlib.Tactic.Common

namespace Wire

variable {ε ε' α β : Type}

abbrev Reader (ε : Type) := StateT (List UInt8) (Except ε)

abbrev Writer (ε : Type) := StateT (List UInt8) (Except ε)

/-- `p` takes exactly these bytes off and returns `a`. -/
def Reads (p : Reader ε α) (bytes : List UInt8) (a : α) : Prop :=
  ∀ rest, p.run (bytes ++ rest) = .ok (a, rest)

/-- `w` appends exactly these bytes. -/
def Writes (w : Writer ε Unit) (bytes : List UInt8) : Prop :=
  ∀ before, w.run before = .ok ((), before ++ bytes)

/-- `p` reads `a` back from what `w` writes. -/
def Codes (w : Writer ε Unit) (p : Reader ε' α) (a : α) : Prop :=
  ∃ bytes, Writes w bytes ∧ Reads p bytes a

/-- `w` appends at most `n` bytes. -/
def WritesUpTo (n : Nat) (w : Writer ε Unit) : Prop := ∃ bytes, Writes w bytes ∧ bytes.length ≤ n

/-- Every value that `p` returns has the property. -/
def Yields (p : Reader ε α) (P : α → Prop) : Prop :=
  ∀ s a s', p.run s = .ok (a, s') → P a

/-- What `w` writes, `p` refuses, whatever stands behind it. -/
def Refuses (w : Writer ε Unit) (p : Reader ε' α) : Prop :=
  ∃ bytes, Writes w bytes ∧ ∀ rest, ∃ e, p.run (bytes ++ rest) = .error e

/-- `w` fails unless `P` holds. -/
def Requires (w : Writer ε α) (P : Prop) : Prop := ∀ before result, w.run before = .ok result → P

/-- Whatever `p` returns, `q` returns too. -/
def Within (p q : Reader ε α) : Prop := ∀ s result, p.run s = .ok result → q.run s = .ok result

/-- The value of a list of fields, one behind the other. -/
def readEach (p : Reader ε α) : Nat → Reader ε (List α)
  | 0 => pure []
  | n + 1 => do
      let a ← p
      let as ← readEach p n
      pure (a :: as)

/-- A reader whose failures are those of `p`, under another name. -/
def Reader.mapError (f : ε → ε') (p : Reader ε α) : Reader ε' α := fun s =>
  match p.run s with
  | .ok result => .ok result
  | .error e => .error (f e)

theorem run_mapError (f : ε → ε') (p : Reader ε α) (s : List UInt8) :
    (p.mapError f).run s = (p.run s).mapError f := by
  show (match p.run s with
    | .ok result => Except.ok result
    | .error e => .error (f e)) = _
  cases p.run s <;> rfl

theorem mapError_bind (f : ε → ε') (p : Reader ε α) (q : α → Reader ε β) :
    (p >>= q).mapError f = p.mapError f >>= fun a => (q a).mapError f := by
  funext s
  show ((p >>= q).mapError f).run s = (p.mapError f >>= fun a => (q a).mapError f).run s
  rw [run_mapError, StateT.run_bind, StateT.run_bind, run_mapError]
  cases p.run s with
  | error e => rfl
  | ok result => exact (run_mapError f (q result.1) result.2).symm

/-- Write the fields of a list, one behind the other. -/
def writeEach (w : α → Writer ε Unit) : List α → Writer ε Unit
  | [] => pure ()
  | a :: as => do
      w a
      writeEach w as

/-! ### Reading -/

theorem reads_pure (a : α) : Reads (pure a : Reader ε α) [] a := fun _ => rfl

theorem Reads.bind {p : Reader ε α} {f : α → Reader ε β} {bytes bytes' : List UInt8} {a : α} {b : β}
    (first : Reads p bytes a) (second : Reads (f a) bytes' b) :
    Reads (p >>= f) (bytes ++ bytes') b := by
  intro rest
  rw [List.append_assoc, StateT.run_bind, first]
  exact second rest

theorem Reads.mapError {p : Reader ε α} {bytes : List UInt8} {a : α} (reads : Reads p bytes a)
    (f : ε → ε') : Reads (p.mapError f) bytes a := by
  intro rest
  rw [run_mapError, reads]
  rfl

/-! ### Writing -/

theorem writes_pure : Writes (pure () : Writer ε Unit) [] := by
  intro before
  rw [List.append_nil]
  rfl

theorem Writes.bind {w w' : Writer ε Unit} {bytes bytes' : List UInt8} (first : Writes w bytes)
    (second : Writes w' bytes') : Writes (w >>= fun _ => w') (bytes ++ bytes') := by
  intro before
  rw [← List.append_assoc, StateT.run_bind, first]
  exact second _

/-- A writer appends the same bytes every time. -/
theorem Writes.unique {w : Writer ε Unit} {bytes bytes' : List UInt8} (writes : Writes w bytes)
    (writes' : Writes w bytes') : bytes = bytes' := by
  have same := (writes []).symm.trans (writes' [])
  exact (Prod.mk.inj (Except.ok.inj same)).2

theorem writesUpTo_pure (n : Nat) : WritesUpTo n (pure () : Writer ε Unit) :=
  ⟨[], writes_pure, Nat.zero_le n⟩

theorem WritesUpTo.bind {w w' : Writer ε Unit} {n m : Nat} (first : WritesUpTo n w)
    (second : WritesUpTo m w') : WritesUpTo (n + m) (w >>= fun _ => w') := by
  obtain ⟨bytes, writes, small⟩ := first
  obtain ⟨bytes', writes', small'⟩ := second
  refine ⟨bytes ++ bytes', writes.bind writes', ?_⟩
  rw [List.length_append]
  omega

/-! ### Round trips -/

theorem codes_pure (a : α) : Codes (pure () : Writer ε Unit) (pure a : Reader ε' α) a :=
  ⟨[], writes_pure, reads_pure a⟩

theorem Codes.bind {w w' : Writer ε Unit} {p : Reader ε' α} {f : α → Reader ε' β} {a : α} {b : β}
    (first : Codes w p a) (second : Codes w' (f a) b) :
    Codes (w >>= fun _ => w') (p >>= f) b := by
  obtain ⟨bytes, writes, reads⟩ := first
  obtain ⟨bytes', writes', reads'⟩ := second
  exact ⟨bytes ++ bytes', writes.bind writes', reads.bind reads'⟩

theorem Codes.mapError {ε'' : Type} {w : Writer ε Unit} {p : Reader ε' α} {a : α}
    (codes : Codes w p a) (f : ε' → ε'') : Codes w (p.mapError f) a := by
  obtain ⟨bytes, writes, reads⟩ := codes
  exact ⟨bytes, writes, reads.mapError f⟩

/-- A field after which the reader is done. -/
theorem Codes.done {w : Writer ε Unit} {p : Reader ε' α} {f : α → Reader ε' β} {a : α} {b : β}
    (codes : Codes w p a) (last : f a = pure b) : Codes w (p >>= f) b := by
  obtain ⟨bytes, writes, reads⟩ := codes
  have ended : Reads (f a) [] b := last ▸ reads_pure b
  exact ⟨bytes, writes, List.append_nil bytes ▸ reads.bind ended⟩

theorem Codes.each {w : α → Writer ε Unit} {p : Reader ε' α} {as : List α}
    (codes : ∀ a ∈ as, Codes (w a) p a) : Codes (writeEach w as) (readEach p as.length) as := by
  induction as with
  | nil => exact codes_pure []
  | cons a as ih =>
      have rest := ih fun b member => codes b (List.mem_cons_of_mem _ member)
      exact (codes a List.mem_cons_self).bind (rest.done rfl)

/-! ### What a reader returns -/

theorem yields_pure {P : α → Prop} {a : α} (holds : P a) : Yields (pure a : Reader ε α) P := by
  intro s b s' ran
  obtain ⟨rfl, -⟩ := Prod.mk.inj (Except.ok.inj ran)
  exact holds

theorem yields_throw {P : α → Prop} (e : ε) : Yields (throw e : Reader ε α) P := by
  intro s a s' ran
  cases ran

theorem Yields.bind {p : Reader ε α} {f : α → Reader ε β} {P : α → Prop} {Q : β → Prop}
    (first : Yields p P) (second : ∀ a, P a → Yields (f a) Q) : Yields (p >>= f) Q := by
  intro s b s' ran
  rw [StateT.run_bind] at ran
  cases here : p.run s with
  | error e =>
      rw [here] at ran
      cases ran
  | ok result =>
      obtain ⟨a, s₁⟩ := result
      rw [here] at ran
      exact second a (first s a s₁ here) s₁ b s' ran

theorem Yields.ite {c : Prop} [Decidable c] {p q : Reader ε α} {P : α → Prop}
    (yes : c → Yields p P) (no : ¬ c → Yields q P) : Yields (if c then p else q) P := by
  by_cases holds : c
  · rw [if_pos holds]
    exact yes holds
  · rw [if_neg holds]
    exact no holds

theorem Yields.trivial (p : Reader ε α) : Yields p fun _ => True := fun _ _ _ _ => True.intro

theorem Yields.each {p : Reader ε α} {P : α → Prop} (yields : Yields p P) (n : Nat) :
    Yields (readEach p n) fun as => as.length = n ∧ ∀ a ∈ as, P a := by
  induction n with
  | zero => exact yields_pure ⟨rfl, nofun⟩
  | succ n ih =>
      refine yields.bind fun a holds => ih.bind fun as rest => yields_pure ⟨?_, ?_⟩
      · rw [List.length_cons, rest.1]
      · exact List.forall_mem_cons.mpr ⟨holds, rest.2⟩

/-! ### What a reader refuses -/

theorem Codes.refuses {w w' : Writer ε Unit} {p : Reader ε' α} {f : α → Reader ε' β} {a : α}
    (first : Codes w p a) (second : Refuses w' (f a)) : Refuses (w >>= fun _ => w') (p >>= f) := by
  have ⟨bytes, writes, reads⟩ := first
  have ⟨bytes', writes', refuses⟩ := second
  refine ⟨bytes ++ bytes', writes.bind writes', fun rest => ?_⟩
  have ⟨e, refused⟩ := refuses rest
  refine ⟨e, ?_⟩
  rw [List.append_assoc, StateT.run_bind, reads]
  exact refused

/-- A field after which the reader gives up. -/
theorem Codes.refused {w : Writer ε Unit} {p : Reader ε' α} {f : α → Reader ε' β} {a : α}
    (codes : Codes w p a) (last : ∃ e, f a = throw e) : Refuses w (p >>= f) := by
  have ⟨bytes, writes, reads⟩ := codes
  have ⟨e, last⟩ := last
  refine ⟨bytes, writes, fun rest => ⟨e, ?_⟩⟩
  rw [StateT.run_bind, reads]
  show (f a).run rest = _
  rw [last]
  rfl

/-! ### What a writer requires -/

theorem requires_throw {P : Prop} (e : ε) : Requires (throw e : Writer ε α) P := by
  intro before result ran
  cases ran

theorem Requires.first {w : Writer ε α} {f : α → Writer ε β} {P : Prop} (requires : Requires w P) :
    Requires (w >>= f) P := by
  intro before result ran
  rw [StateT.run_bind] at ran
  cases here : w.run before with
  | error e =>
      rw [here] at ran
      cases ran
  | ok between => exact requires before between here

theorem Requires.later {w : Writer ε α} {f : α → Writer ε β} {P : Prop}
    (requires : ∀ a, Requires (f a) P) : Requires (w >>= f) P := by
  intro before result ran
  rw [StateT.run_bind] at ran
  cases here : w.run before with
  | error e =>
      rw [here] at ran
      cases ran
  | ok between =>
      rw [here] at ran
      exact requires between.1 between.2 result ran

theorem Requires.and {w : Writer ε α} {P Q : Prop} (left : Requires w P) (right : Requires w Q) :
    Requires w (P ∧ Q) :=
  fun before result ran => ⟨left before result ran, right before result ran⟩

/-- A writer that fails on a condition requires that it does not hold. -/
theorem Requires.check {c : Prop} [Decidable c] {e : ε} {w : Writer ε α} {P : Prop}
    (passed : ¬ c → Requires w P) : Requires (if c then throw e else w) P := by
  by_cases fails : c
  · rw [if_pos fails]
    exact requires_throw e
  · rw [if_neg fails]
    exact passed fails

theorem requires_true {w : Writer ε α} {P : Prop} (holds : P) : Requires w P := fun _ _ _ => holds

theorem Requires.each {w : α → Writer ε Unit} {P : α → Prop} (requires : ∀ a, Requires (w a) (P a))
    (as : List α) : Requires (writeEach w as) (∀ a ∈ as, P a) := by
  induction as with
  | nil => exact requires_true nofun
  | cons a as ih =>
      have both := (requires a).first (f := fun _ => writeEach w as) |>.and (Requires.later fun _ => ih)
      exact fun before result ran => List.forall_mem_cons.mpr (both before result ran)

/-! ### Readers that refuse more -/

theorem Within.refl (p : Reader ε α) : Within p p := fun _ _ ran => ran

theorem Within.bind {p q : Reader ε α} {f g : α → Reader ε β} (first : Within p q)
    (second : ∀ a, Within (f a) (g a)) : Within (p >>= f) (q >>= g) := by
  intro s result ran
  rw [StateT.run_bind] at ran ⊢
  cases here : p.run s with
  | error e =>
      rw [here] at ran
      cases ran
  | ok between =>
      rw [here] at ran
      rw [first s between here]
      exact second between.1 between.2 result ran

theorem Within.ite {c : Prop} [Decidable c] {p p' q q' : Reader ε α} (yes : Within p q)
    (no : Within p' q') : Within (if c then p else p') (if c then q else q') := by
  by_cases holds : c
  · rw [if_pos holds, if_pos holds]
    exact yes
  · rw [if_neg holds, if_neg holds]
    exact no

/-- A check in front of `p` refuses more than none. -/
theorem Within.check {c : Prop} [Decidable c] {e : ε} {p q : Reader ε α} (passed : Within p q) :
    Within (if c then throw e else p) q := by
  intro s result ran
  by_cases refused : c
  · rw [if_pos refused] at ran
    cases ran
  · rw [if_neg refused] at ran
    exact passed s result ran

end Wire
