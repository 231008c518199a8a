/-
Times as texts in the format of ISO 8601.

A time is a number of milliseconds since the start of 1970. Its date is found in years that begin with
March, so that the leap day is the last day of a year: four hundred years are 146097 days, and what is left
of them is divided by a century, by four years and by a year. `days` counts back from the date
(`days_civil`), and `read` takes the text apart again (`read_toISOString`).
-/

import Mathlib.Tactic.Common
import Mathlib.Tactic.Ring

namespace IsoDate

/-! ### Dates -/

structure Civil where
  year : Int
  month : Nat
  day : Nat
  deriving DecidableEq, Repr

/-- The year and the day of the year, both counted from March, of a number of days after 1 March 0. -/
def marchYear (z : Int) : Int × Nat :=
  let left := (z % 146097).toNat
  let centuries := min (left / 36524) 3
  let left := left - 36524 * centuries
  let fours := min (left / 1461) 24
  let left := left - 1461 * fours
  let singles := min (left / 365) 3
  (400 * (z / 146097) + 100 * centuries + 4 * fours + singles, left - 365 * singles)

/-- The date of a number of days after 1 January 1970. -/
def civil (d : Int) : Civil :=
  let (year, dayOfYear) := marchYear (d + 719468)
  let month := (5 * dayOfYear + 2) / 153
  let day := dayOfYear - (153 * month + 2) / 5 + 1
  if month < 10 then ⟨year, month + 3, day⟩ else ⟨year + 1, month - 9, day⟩

/-- The number of days after 1 January 1970. -/
def days (date : Civil) : Int :=
  let year := if date.month ≤ 2 then date.year - 1 else date.year
  let month := if date.month ≤ 2 then date.month + 9 else date.month - 3
  365 * year + year / 4 - year / 100 + year / 400 + (153 * month + 2) / 5 + date.day - 719469

theorem marchYear_day (z : Int) : (marchYear z).2 < 366 := by
  simp only [marchYear]
  omega

/-- Each leap year among the years before is counted once. -/
theorem leapDays {e : Int} {c f s : Nat} (c_le : c ≤ 3) (f_le : f ≤ 24) (s_le : s ≤ 3) :
    let year := 400 * e + 100 * c + 4 * f + s
    year / 4 = 100 * e + 25 * c + f ∧ year / 100 = 4 * e + c ∧ year / 400 = e := by
  intro year
  refine ⟨?_, ?_, ?_⟩ <;> omega

/-- The days of the years before, and of this one. -/
theorem marchYear_days (z : Int) :
    365 * (marchYear z).1 + (marchYear z).1 / 4 - (marchYear z).1 / 100 + (marchYear z).1 / 400 +
      (marchYear z).2 = z := by
  simp only [marchYear]
  generalize same : (z % 146097).toNat = left
  have era : 146097 * (z / 146097) + left = z := by omega
  have least : left < 146097 := by omega
  generalize z / 146097 = e at era ⊢
  generalize centuries : min (left / 36524) 3 = c
  have first : 36524 * c ≤ left ∧ left - 36524 * c ≤ 36524 ∧ c ≤ 3 := by omega
  generalize fours : min ((left - 36524 * c) / 1461) 24 = f
  have second : 1461 * f ≤ left - 36524 * c ∧ left - 36524 * c - 1461 * f ≤ 1460 ∧ f ≤ 24 := by omega
  generalize singles : min ((left - 36524 * c - 1461 * f) / 365) 3 = s
  have third : 365 * s ≤ left - 36524 * c - 1461 * f ∧ s ≤ 3 := by omega
  have ⟨by_four, by_century, by_era⟩ := leapDays (e := e) first.2.2 second.2.2 third.2
  rw [by_four, by_century, by_era]
  omega

theorem days_civil (d : Int) : days (civil d) = d := by
  have total := marchYear_days (d + 719468)
  have short := marchYear_day (d + 719468)
  rw [civil]
  generalize marchYear (d + 719468) = date at total short
  have ⟨year, dayOfYear⟩ := date
  dsimp only at total short ⊢
  by_cases early : (5 * dayOfYear + 2) / 153 < 10
  · rw [if_pos early, days]
    dsimp only
    rw [if_neg (by omega), if_neg (by omega)]
    omega
  · rw [if_neg early, days]
    dsimp only
    rw [if_pos (by omega), if_pos (by omega)]
    omega

/-- A date has two digits for its month and for its day, and up to `10 ^ 8` days away six for its year. -/
theorem civil_small {d : Int} (near : -100000000 ≤ d ∧ d ≤ 100000000) :
    (civil d).month < 10 ^ 2 ∧ (civil d).day < 10 ^ 2 ∧ -10 ^ 6 < (civil d).year ∧
      (civil d).year < 10 ^ 6 := by
  have total := marchYear_days (d + 719468)
  have short := marchYear_day (d + 719468)
  rw [civil]
  generalize marchYear (d + 719468) = date at total short
  have ⟨year, dayOfYear⟩ := date
  dsimp only at total short ⊢
  by_cases early : (5 * dayOfYear + 2) / 153 < 10
  · rw [if_pos early]
    dsimp only
    omega
  · rw [if_neg early]
    dsimp only
    omega

/-! ### Digits -/

/-- The last `k` digits of a number. -/
def digits : Nat → Nat → List Char
  | 0, _ => []
  | k + 1, n => Nat.digitChar (n / 10 ^ k % 10) :: digits k n

/-- A number of `k` digits, behind those that were read before, and what stands behind it. -/
def readDigits : Nat → Nat → List Char → Option (Nat × List Char)
  | 0, n, text => some (n, text)
  | _ + 1, _, [] => none
  | k + 1, n, c :: text =>
      if c.isDigit then readDigits k (n * 10 + (c.toNat - '0'.toNat)) text else none

theorem digitChar_isDigit {n : Nat} (small : n < 10) :
    (Nat.digitChar n).isDigit = true ∧ (Nat.digitChar n).toNat - '0'.toNat = n :=
  (by decide : ∀ n < 10, (Nat.digitChar n).isDigit = true ∧
    (Nat.digitChar n).toNat - '0'.toNat = n) n small

theorem readDigits_digits (k before n : Nat) (text : List Char) :
    readDigits k before (digits k n ++ text) = some (before * 10 ^ k + n % 10 ^ k, text) := by
  induction k generalizing before with
  | zero =>
      rw [Nat.pow_zero, Nat.mod_one, Nat.mul_one, Nat.add_zero]
      rfl
  | succ k ih =>
      have ⟨digit, value⟩ := digitChar_isDigit (Nat.mod_lt (n / 10 ^ k) (by decide : 0 < 10))
      rw [digits, List.cons_append, readDigits, if_pos digit, value, ih]
      congr 2
      rw [Nat.pow_succ, Nat.mod_mul]
      ring

theorem readDigits_small {k n : Nat} (small : n < 10 ^ k) (text : List Char) :
    readDigits k 0 (digits k n ++ text) = some (n, text) := by
  rw [readDigits_digits, Nat.zero_mul, Nat.zero_add, Nat.mod_eq_of_lt small]

/-! ### Texts -/

def millisecondsOfDay : Int := 86400000

/-- Four digits, or a sign and six of them. -/
def yearText (year : Int) : List Char :=
  if 0 ≤ year ∧ year ≤ 9999 then digits 4 year.toNat
  else if year < 0 then '-' :: digits 6 (-year).toNat
  else '+' :: digits 6 year.toNat

def toISOString (ms : Int) : List Char :=
  let date := civil (ms / millisecondsOfDay)
  let time := (ms % millisecondsOfDay).toNat
  yearText date.year ++ ('-' :: (digits 2 date.month ++ ('-' :: (digits 2 date.day ++
    ('T' :: (digits 2 (time / 3600000) ++ (':' :: (digits 2 (time / 60000 % 60) ++
      (':' :: (digits 2 (time / 1000 % 60) ++ ('.' :: (digits 3 (time % 1000) ++ ['Z']))))))))))))

/-- What stands behind this character. -/
def expect (c : Char) : List Char → Option (List Char)
  | [] => none
  | d :: text => if d = c then some text else none

def readYear : List Char → Option (Int × List Char)
  | '-' :: text => (readDigits 6 0 text).map fun (year, text) => (-(year : Int), text)
  | '+' :: text => (readDigits 6 0 text).map fun (year, text) => ((year : Int), text)
  | text => (readDigits 4 0 text).map fun (year, text) => ((year : Int), text)

def read (text : List Char) : Option Int := do
  let (year, text) ← readYear text
  let (month, text) ← readDigits 2 0 (← expect '-' text)
  let (day, text) ← readDigits 2 0 (← expect '-' text)
  let (hour, text) ← readDigits 2 0 (← expect 'T' text)
  let (minute, text) ← readDigits 2 0 (← expect ':' text)
  let (second, text) ← readDigits 2 0 (← expect ':' text)
  let (ms, text) ← readDigits 3 0 (← expect '.' text)
  let _ ← expect 'Z' text
  some (days ⟨year, month, day⟩ * millisecondsOfDay +
    (((hour * 60 + minute) * 60 + second) * 1000 + ms : Nat))

theorem expect_cons (c : Char) (text : List Char) : expect c (c :: text) = some text := if_pos rfl

theorem readYear_yearText {year : Int} (small : -10 ^ 6 < year ∧ year < 10 ^ 6) (text : List Char) :
    readYear (yearText year ++ text) = some (year, text) := by
  rw [yearText]
  by_cases plain : 0 ≤ year ∧ year ≤ 9999
  · rw [if_pos plain]
    have read := readDigits_small (show year.toNat < 10 ^ 4 by omega) text
    have same : readYear (digits 4 year.toNat ++ text) =
        (readDigits 4 0 (digits 4 year.toNat ++ text)).map fun (year, text) =>
          ((year : Int), text) := by
      have digit := (digitChar_isDigit (Nat.mod_lt (year.toNat / 10 ^ 3) (by decide : 0 < 10))).1
      rw [digits, List.cons_append]
      generalize Nat.digitChar (year.toNat / 10 ^ 3 % 10) = c at digit
      rw [readYear]
      · intro text' first
        rw [(List.cons.inj first).1] at digit
        exact absurd digit (by decide)
      · intro text' first
        rw [(List.cons.inj first).1] at digit
        exact absurd digit (by decide)
    rw [same, read, Option.map_some]
    show some ((year.toNat : Int), text) = _
    rw [Int.toNat_of_nonneg plain.1]
  · rw [if_neg plain]
    by_cases negative : year < 0
    · rw [if_pos negative, List.cons_append, readYear, readDigits_small (by omega), Option.map_some]
      show some (-((-year).toNat : Int), text) = _
      rw [Int.toNat_of_nonneg (by omega), Int.neg_neg]
    · rw [if_neg negative, List.cons_append, readYear, readDigits_small (by omega), Option.map_some]
      show some ((year.toNat : Int), text) = _
      rw [Int.toNat_of_nonneg (by omega)]

/-- Up to `10 ^ 8` days away every time is read back from its text. -/
theorem read_toISOString {ms : Int}
    (near : -8640000000000000 ≤ ms ∧ ms ≤ 8640000000000000) : read (toISOString ms) = some ms := by
  have near' : -100000000 ≤ ms / millisecondsOfDay ∧ ms / millisecondsOfDay ≤ 100000000 := by
    unfold millisecondsOfDay
    omega
  have ⟨month, day, least, most⟩ := civil_small near'
  have dated := days_civil (ms / millisecondsOfDay)
  have time : (ms % millisecondsOfDay).toNat < 86400000 := by
    unfold millisecondsOfDay
    omega
  have split : ms / millisecondsOfDay * millisecondsOfDay + (ms % millisecondsOfDay).toNat = ms := by
    unfold millisecondsOfDay
    omega
  rw [toISOString, read]
  generalize civil (ms / millisecondsOfDay) = date at month day least most dated
  generalize (ms % millisecondsOfDay).toNat = t at time split
  simp only [readYear_yearText ⟨least, most⟩, expect_cons, readDigits_small month,
    readDigits_small day, readDigits_small (show t / 3600000 < 10 ^ 2 by omega),
    readDigits_small (show t / 60000 % 60 < 10 ^ 2 by omega),
    readDigits_small (show t / 1000 % 60 < 10 ^ 2 by omega),
    readDigits_small (show t % 1000 < 10 ^ 3 by omega), Option.bind_eq_bind, Option.bind_some]
  show some (days date * _ + _) = _
  rw [dated, ← split]
  congr 2
  rw [split]
  congr 1
  omega

/-- The time of a text that `toISOString` writes; any other text is left to `other`. -/
def parse (other : List Char → Option Int) (text : List Char) : Option Int :=
  match read text with
  | none => other text
  | some ms => if toISOString ms = text then some ms else other text

theorem parse_toISOString (other : List Char → Option Int) {ms : Int}
    (near : -8640000000000000 ≤ ms ∧ ms ≤ 8640000000000000) :
    parse other (toISOString ms) = some ms := by
  simp only [parse, read_toISOString near, if_pos]

example : toISOString 1772368496789 = "2026-03-01T12:34:56.789Z".toList := by decide +kernel

end IsoDate
