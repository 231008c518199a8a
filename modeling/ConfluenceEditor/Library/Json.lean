/-
JSON texts.

`parse` reads a text by the grammar of JSON; a string is the list of its code points, as it stands in the
text or as it is escaped, so that the two halves of a surrogate pair may stand in it one by one. Numbers
keep their literal. `stringify` writes an object of strings. Reading it back gives its members
(`parse_stringify`).
-/

import Mathlib.Tactic.Common

namespace Json

inductive Value where
  | null
  | bool (b : Bool)
  | number (literal : List Char)
  | string (text : List Nat)
  | array (elements : List Value)
  | object (members : List (List Nat × Value))

/-! ### Writing -/

def hexDigit (n : Nat) : Char := Nat.digitChar n

/-- A character as it stands in a string. -/
def escape (c : Char) : List Char :=
  match c with
  | '"' => ['\\', '"']
  | '\\' => ['\\', '\\']
  | '\n' => ['\\', 'n']
  | '\r' => ['\\', 'r']
  | '\t' => ['\\', 't']
  | '\x08' => ['\\', 'b']
  | '\x0c' => ['\\', 'f']
  | c =>
      if c.toNat < 0x20 then
        ['\\', 'u', '0', '0', hexDigit (c.toNat / 16), hexDigit (c.toNat % 16)]
      else [c]

def quote (text : List Char) : List Char := '"' :: (text.flatMap escape ++ ['"'])

def stringifyMember (member : List Char × List Char) : List Char :=
  quote member.1 ++ (':' :: quote member.2)

def stringifyMembers : List (List Char × List Char) → List Char
  | [] => []
  | [member] => stringifyMember member
  | member :: members => stringifyMember member ++ (',' :: stringifyMembers members)

/-- An object whose values are strings. -/
def stringify (members : List (List Char × List Char)) : List Char :=
  '{' :: (stringifyMembers members ++ ['}'])

/-! ### Reading -/

def isSpace (c : Char) : Bool := c = ' ' || c = '\t' || c = '\n' || c = '\r'

def skip (s : List Char) : List Char := s.dropWhile isSpace

def hexValue? (c : Char) : Option Nat :=
  if '0' ≤ c ∧ c ≤ '9' then some (c.toNat - '0'.toNat)
  else if 'a' ≤ c ∧ c ≤ 'f' then some (c.toNat - 'a'.toNat + 10)
  else if 'A' ≤ c ∧ c ≤ 'F' then some (c.toNat - 'A'.toNat + 10)
  else none

/-- The unit of an escape of four digits. -/
def unit? (a b c d : Char) : Option Nat := do
  let a ← hexValue? a
  let b ← hexValue? b
  let c ← hexValue? c
  let d ← hexValue? d
  some (((a * 16 + b) * 16 + c) * 16 + d)

/-- The code point of an escape of one character. -/
def escaped? : Char → Option Nat
  | '"' => some '"'.toNat
  | '\\' => some '\\'.toNat
  | '/' => some '/'.toNat
  | 'b' => some 0x08
  | 'f' => some 0x0c
  | 'n' => some 0x0a
  | 'r' => some 0x0d
  | 't' => some 0x09
  | _ => none

/-- A string up to its closing quote, and what stands behind it. -/
def parseString : List Char → Option (List Nat × List Char)
  | [] => none
  | '"' :: rest => some ([], rest)
  | '\\' :: 'u' :: a :: b :: c :: d :: rest =>
      match unit? a b c d with
      | none => none
      | some v => (parseString rest).map fun (text, rest) => (v :: text, rest)
  | '\\' :: c :: rest =>
      match escaped? c with
      | none => none
      | some v => (parseString rest).map fun (text, rest) => (v :: text, rest)
  | c :: rest =>
      if c = '\\' ∨ c.toNat < 0x20 then none
      else (parseString rest).map fun (text, rest) => (c.toNat :: text, rest)

/-- Digits, at least one. -/
def skipDigits : List Char → Option (List Char)
  | [] => none
  | c :: rest => if c.isDigit then some (rest.dropWhile Char.isDigit) else none

def skipSign : List Char → List Char
  | '+' :: rest => rest
  | '-' :: rest => rest
  | s => s

def skipInteger : List Char → Option (List Char)
  | '-' :: '0' :: rest => some rest
  | '0' :: rest => some rest
  | '-' :: rest => skipDigits rest
  | s => skipDigits s

def skipFraction : List Char → Option (List Char)
  | '.' :: rest => skipDigits rest
  | s => some s

def skipExponent : List Char → Option (List Char)
  | 'e' :: rest => skipDigits (skipSign rest)
  | 'E' :: rest => skipDigits (skipSign rest)
  | s => some s

def parseNumber (s : List Char) : Option (Value × List Char) := do
  let rest ← skipExponent (← skipFraction (← skipInteger s))
  some (.number (s.take (s.length - rest.length)), rest)

mutual

/-- A value, and what stands behind it. The fuel bounds the number of members and the depth. -/
def parseValue : Nat → List Char → Option (Value × List Char)
  | 0, _ => none
  | fuel + 1, s =>
      match skip s with
      | '"' :: rest => (parseString rest).map fun (text, rest) => (.string text, rest)
      | '{' :: rest =>
          match skip rest with
          | '}' :: rest => some (.object [], rest)
          | rest => (parseMembers fuel rest).map fun (members, rest) => (.object members, rest)
      | '[' :: rest =>
          match skip rest with
          | ']' :: rest => some (.array [], rest)
          | rest => (parseElements fuel rest).map fun (elements, rest) => (.array elements, rest)
      | 't' :: 'r' :: 'u' :: 'e' :: rest => some (.bool true, rest)
      | 'f' :: 'a' :: 'l' :: 's' :: 'e' :: rest => some (.bool false, rest)
      | 'n' :: 'u' :: 'l' :: 'l' :: rest => some (.null, rest)
      | rest => parseNumber rest

def parseMember : Nat → List Char → Option ((List Nat × Value) × List Char)
  | 0, _ => none
  | fuel + 1, s =>
      match skip s with
      | '"' :: rest =>
          match parseString rest with
          | none => none
          | some (key, rest) =>
              match skip rest with
              | ':' :: rest => (parseValue fuel rest).map fun (value, rest) => ((key, value), rest)
              | _ => none
      | _ => none

/-- The members of an object up to its closing brace. -/
def parseMembers : Nat → List Char → Option (List (List Nat × Value) × List Char)
  | 0, _ => none
  | fuel + 1, s =>
      match parseMember fuel s with
      | none => none
      | some (member, rest) =>
          match skip rest with
          | '}' :: rest => some ([member], rest)
          | ',' :: rest => (parseMembers fuel rest).map fun (members, rest) => (member :: members, rest)
          | _ => none

/-- The elements of an array up to its closing bracket. -/
def parseElements : Nat → List Char → Option (List Value × List Char)
  | 0, _ => none
  | fuel + 1, s =>
      match parseValue fuel s with
      | none => none
      | some (value, rest) =>
          match skip rest with
          | ']' :: rest => some ([value], rest)
          | ',' :: rest =>
              (parseElements fuel rest).map fun (elements, rest) => (value :: elements, rest)
          | _ => none

end

/-- Every call takes a character off within three steps. -/
def parse (s : List Char) : Option Value :=
  match parseValue (3 * s.length + 1) s with
  | none => none
  | some (value, rest) => if skip rest = [] then some value else none

/-! ### Reading what was written -/

theorem skip_cons {c : Char} (visible : isSpace c = false) (s : List Char) :
    skip (c :: s) = c :: s := by
  rw [skip, List.dropWhile_cons, visible, if_neg Bool.false_ne_true]

theorem unit_control {n : Nat} (small : n < 0x20) :
    unit? '0' '0' (hexDigit (n / 16)) (hexDigit (n % 16)) = some n :=
  (by decide : ∀ n < 0x20, unit? '0' '0' (hexDigit (n / 16)) (hexDigit (n % 16)) = some n) n small

theorem parseString_escape (c : Char) (rest : List Char) :
    parseString (escape c ++ rest) =
      (parseString rest).map fun (text, rest) => (c.toNat :: text, rest) := by
  unfold escape
  split
  all_goals try rfl
  next quotes backslash _ _ _ _ _ =>
    by_cases control : c.toNat < 0x20
    · rw [if_pos control]
      show parseString ('\\' :: 'u' :: '0' :: '0' :: hexDigit (c.toNat / 16) ::
        hexDigit (c.toNat % 16) :: rest) = _
      rw [parseString, unit_control control]
    · rw [if_neg control]
      show parseString (c :: rest) = _
      rw [parseString, if_neg]
      · rintro (same | less)
        · exact backslash same
        · exact control less
      · exact quotes
      · intro _ _ _ _ _ same
        exact (backslash same).elim
      · intro _ _ same
        exact (backslash same).elim

theorem parseString_quote (text rest : List Char) :
    parseString (text.flatMap escape ++ ('"' :: rest)) = some (text.map Char.toNat, rest) := by
  induction text with
  | nil => rfl
  | cons c text ih =>
      rw [List.flatMap_cons, List.append_assoc, parseString_escape, ih]
      rfl

theorem parseValue_quote (fuel : Nat) (text rest : List Char) :
    parseValue (fuel + 1) (quote text ++ rest) = some (.string (text.map Char.toNat), rest) := by
  have split : quote text ++ rest = '"' :: (text.flatMap escape ++ ('"' :: rest)) := by
    rw [quote, List.cons_append, List.append_assoc]
    rfl
  rw [split, parseValue, skip_cons (by decide)]
  show (parseString _).map _ = _
  rw [parseString_quote]
  rfl

/-- The member that is read. -/
def readMember (member : List Char × List Char) : List Nat × Value :=
  (member.1.map Char.toNat, .string (member.2.map Char.toNat))

theorem parseMember_stringify (fuel : Nat) (member : List Char × List Char) (rest : List Char) :
    parseMember (fuel + 2) (stringifyMember member ++ rest) = some (readMember member, rest) := by
  have split : stringifyMember member ++ rest =
      '"' :: (member.1.flatMap escape ++ ('"' :: ':' :: (quote member.2 ++ rest))) := by
    rw [stringifyMember, quote, List.cons_append, List.cons_append, List.append_assoc,
      List.append_assoc]
    rfl
  rw [split, parseMember, skip_cons (by decide)]
  show (match parseString _ with
    | none => none
    | some (key, rest) => _) = _
  rw [parseString_quote]
  show (match skip (':' :: (quote member.2 ++ rest)) with
    | ':' :: rest => _
    | _ => none) = _
  rw [skip_cons (by decide)]
  show (parseValue _ _).map _ = _
  rw [parseValue_quote]
  rfl

theorem parseMembers_stringify {members : List (List Char × List Char)} (some_member : members ≠ [])
    {fuel : Nat} (enough : members.length < fuel) (rest : List Char) :
    parseMembers (fuel + 1) (stringifyMembers members ++ ('}' :: rest)) =
      some (members.map readMember, rest) := by
  induction members generalizing fuel with
  | nil => exact absurd rfl some_member
  | cons member members ih =>
      have ⟨n, size⟩ : ∃ n, fuel = n + 2 := ⟨fuel - 2, by rw [List.length_cons] at enough; omega⟩
      cases members with
      | nil =>
          rw [stringifyMembers, parseMembers, size, parseMember_stringify]
          rfl
      | cons next members =>
          rw [stringifyMembers, List.append_assoc, parseMembers, size, parseMember_stringify]
          · have inner : (next :: members).length < n + 1 := by
              rw [List.length_cons] at enough
              omega
            show (parseMembers (n + 2) (stringifyMembers (next :: members) ++ ('}' :: rest))).map _ = _
            rw [ih (List.cons_ne_nil _ _) inner]
            rfl
          · exact List.cons_ne_nil _ _

theorem length_stringifyMembers (members : List (List Char × List Char)) :
    members.length ≤ (stringifyMembers members).length := by
  induction members with
  | nil => exact Nat.le_refl _
  | cons member members ih =>
      cases members with
      | nil =>
          rw [stringifyMembers, stringifyMember, quote]
          simp
      | cons next members =>
          rw [stringifyMembers, List.length_append]
          · simp only [List.length_cons] at ih ⊢
            omega
          · exact List.cons_ne_nil _ _

theorem stringifyMembers_eq {members : List (List Char × List Char)} (some_member : members ≠ []) :
    ∃ tail, stringifyMembers members = '"' :: tail := by
  cases members with
  | nil => exact absurd rfl some_member
  | cons member members =>
      cases members with
      | nil => exact ⟨_, rfl⟩
      | cons next members => exact ⟨_, rfl⟩

theorem parse_stringify {members : List (List Char × List Char)} (some_member : members ≠ []) :
    parse (stringify members) = some (.object (members.map readMember)) := by
  have short := length_stringifyMembers members
  have ⟨fuel, size, enough⟩ :
      ∃ fuel, 3 * (stringify members).length = fuel + 1 ∧ members.length < fuel := by
    refine ⟨3 * (stringify members).length - 1, ?_⟩
    rw [stringify, List.length_cons, List.length_append]
    omega
  have inner := parseMembers_stringify some_member enough []
  have ⟨tail, first⟩ := stringifyMembers_eq some_member
  rw [parse, size, stringify, parseValue, skip_cons (by decide)]
  rw [first] at inner ⊢
  show (match (match skip ('"' :: (tail ++ ['}'])) with
    | '}' :: rest => some (Value.object [], rest)
    | rest => (parseMembers (fuel + 1) rest).map fun (members, rest) => (.object members, rest)) with
    | none => none
    | some (value, rest) => if skip rest = [] then some value else none) = _
  rw [skip_cons (by decide)]
  show (match (parseMembers (fuel + 1) ('"' :: tail ++ ['}'])).map fun (members, rest) =>
      (Value.object members, rest) with
    | none => none
    | some (value, rest) => if skip rest = [] then some value else none) = _
  rw [inner]
  rfl

example : (parse "[1, -2.5e3, \"\\u00e9\\n\", true]".toList).isSome = true := by decide +kernel

end Json
