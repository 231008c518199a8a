/-
Which stored snapshot diverged first.

When the newest snapshot disagrees with a replay of the log, the audit searches the snapshots of the
document, each against a replay up to its own number. The one it reports disagrees, and it is the
oldest one or comes right after one that agrees (`bisect_finds_divergence`); nothing is assumed of
the others. A replay whose text cannot be made ends the search.
-/

import ConfluenceEditor.Library.Bisection
import ConfluenceEditor.Server.LiveReplay

namespace ConfluenceEditor

open Engine

/-- A snapshot agrees with a genesis replay up to its number. -/
def matchesReplay (seqOps : List (Nat × Operation)) (snapshot : SnapshotRow) :
    Except String Bool := do
  let replayed ← replayThrough seqOps snapshot.seq
  let text ← replayed.text
  .ok (decide (text = snapshot.content))

structure Divergence where
  divergenceSeq : Nat
  detail : String
  deriving DecidableEq, Repr

/-- The text of a report. -/
def divergenceDetail (bad : SnapshotRow) (total : Nat) : String :=
  if total = 1 then
    "the only persisted snapshot (seq " ++ toString bad.seq ++ ") disagrees with an independent " ++
      "genesis replay through that same seq — its content is corrupt, its structure column " ++
      "disagrees with what actually happened, or a bug wrote it wrong in the first place"
  else
    "snapshot at seq " ++ toString bad.seq ++ " (of " ++ toString total ++ " total) is the first " ++
      "whose content disagrees with an independent genesis replay through that same seq"

/-- `snapshots[i]!` -/
def snapshotAt (snapshots : List SnapshotRow) (i : Nat) : Except String SnapshotRow :=
  match snapshots[i]? with
  | some snapshot => .ok snapshot
  | none => .error "TypeError: Cannot read properties of undefined"

/-- The snapshot with this index agrees with the replay. -/
def matchesAt (seqOps : List (Nat × Operation)) (snapshots : List SnapshotRow) (i : Nat) :
    Except String Bool := do
  let snapshot ← snapshotAt snapshots i
  matchesReplay seqOps snapshot

def bisectSnapshotDivergence (seqOps : List (Nat × Operation)) (snapshots : List SnapshotRow) :
    Except String Divergence := do
  let hi : Int := snapshots.length - 1
  let firstBad ← Bisection.search (matchesAt seqOps snapshots) 0 hi hi
  let bad ← snapshotAt snapshots firstBad.toNat
  .ok ⟨bad.seq, divergenceDetail bad snapshots.length⟩

/-- The snapshots of a document, the oldest one first. -/
def Store.listSnapshots (s : Store) : List SnapshotRow := s.snapshots.reverse

/-! ### What is found -/

/-- The report names a snapshot that disagrees and is the oldest one or follows one that agrees; if
all snapshots after a disagreeing one disagree, no older snapshot disagrees. -/
structure Located (seqOps : List (Nat × Operation)) (snapshots : List SnapshotRow)
    (found : Divergence) (k : Nat) (bad : SnapshotRow) : Prop where
  listed : snapshots[k]? = some bad
  report : found = ⟨bad.seq, divergenceDetail bad snapshots.length⟩
  mismatch : matchesReplay seqOps bad = .ok false
  boundary : k = 0 ∨ ∃ previous, snapshots[k - 1]? = some previous ∧
    matchesReplay seqOps previous = .ok true
  first : (∀ (i j : Nat) (a b : SnapshotRow), i ≤ j → snapshots[i]? = some a → snapshots[j]? = some b →
      matchesReplay seqOps a = .ok false → matchesReplay seqOps b = .ok false) →
    ∀ (i : Nat) (a : SnapshotRow), i < k → snapshots[i]? = some a → matchesReplay seqOps a ≠ .ok false

variable {seqOps : List (Nat × Operation)} {snapshots : List SnapshotRow}

theorem matchesAt_of_listed {i : Nat} {snapshot : SnapshotRow}
    (listed : snapshots[i]? = some snapshot) :
    matchesAt seqOps snapshots i = matchesReplay seqOps snapshot := by
  rw [matchesAt, snapshotAt, listed]
  rfl

theorem listed_of_matchesAt {i : Nat} {agrees : Bool}
    (tested : matchesAt seqOps snapshots i = .ok agrees) :
    ∃ snapshot, snapshots[i]? = some snapshot ∧ matchesReplay seqOps snapshot = .ok agrees := by
  cases listed : snapshots[i]? with
  | none =>
      rw [matchesAt, snapshotAt, listed] at tested
      cases tested
  | some snapshot => exact ⟨snapshot, rfl, matchesAt_of_listed listed ▸ tested⟩

/-- A comparison throws only when the replayed text cannot be made. -/
theorem matchesReplay_error {snapshot : SnapshotRow} {message : String}
    (threw : matchesReplay seqOps snapshot = .error message) :
    ∃ replayed, replayThrough seqOps snapshot.seq = .ok replayed ∧
      replayed.text = .error message := by
  obtain ⟨replayed, applied, ran, -⟩ := (built_new 0).applyAll_spec
    ((seqOps.takeWhile fun row => row.1 ≤ snapshot.seq).map Prod.snd)
  refine ⟨replayed, ran, ?_⟩
  rw [matchesReplay, replayThrough, ran] at threw
  cases text : replayed.text with
  | ok text' =>
      simp only [text, bind, Except.bind] at threw
      cases threw
  | error message' =>
      simp only [text, bind, Except.bind] at threw
      rw [Except.error.inj threw]

/-- If the newest snapshot disagrees with the replay, the search reports a divergence that is real,
or stops at a snapshot whose replay has no text. -/
theorem bisect_finds_divergence {newest : SnapshotRow} (listed : snapshots.getLast? = some newest)
    (mismatch : matchesReplay seqOps newest = .ok false) :
    (∃ found k bad, bisectSnapshotDivergence seqOps snapshots = .ok found ∧
        Located seqOps snapshots found k bad) ∨
      ∃ message, bisectSnapshotDivergence seqOps snapshots = .error message ∧
        ∃ snapshot ∈ snapshots, ∃ replayed,
          replayThrough seqOps snapshot.seq = .ok replayed ∧ replayed.text = .error message := by
  have inhabited : 0 < snapshots.length := by
    cases snapshots with
    | nil => cases listed
    | cons => exact Nat.succ_pos _
  have fails : matchesAt seqOps snapshots (snapshots.length - 1) = .ok false := by
    rw [matchesAt_of_listed (List.getLast?_eq_getElem? ▸ listed), mismatch]
  have last : ((snapshots.length : Int) - 1).toNat = snapshots.length - 1 := by omega
  have narrowed : Bisection.Narrowed (matchesAt seqOps snapshots) 0 (snapshots.length - 1)
      (snapshots.length - 1) :=
    ⟨le_refl _, by omega, by omega, Or.inl rfl, by rw [last, fails], Or.inr rfl⟩
  rcases Bisection.search_spec narrowed with ⟨k, found, inside, failed, boundary⟩ |
    ⟨message, i, threw, inside, failed⟩
  · obtain ⟨bad, listedBad, mismatchBad⟩ := listed_of_matchesAt failed
    refine Or.inl ⟨⟨bad.seq, divergenceDetail bad snapshots.length⟩, k, bad, ?_, listedBad, rfl,
      mismatchBad, boundary.imp_right listed_of_matchesAt, fun monotone i a before listedA => ?_⟩
    · rw [bisectSnapshotDivergence, found]
      simp only [bind, Except.bind, Int.toNat_natCast, snapshotAt, listedBad]
    · rw [← matchesAt_of_listed listedA]
      refine Bisection.passes_below (n := snapshots.length) (fun i j order bound failed => ?_)
        (by omega) boundary before
      obtain ⟨a, listedA, mismatchA⟩ := listed_of_matchesAt failed
      have listedB := List.getElem?_eq_getElem bound
      rw [matchesAt_of_listed listedB]
      exact monotone i j a _ order listedA listedB mismatchA
  · refine Or.inr ⟨message, ?_, ?_⟩
    · rw [bisectSnapshotDivergence, threw]
      rfl
    · have bound : i < snapshots.length := by omega
      rw [matchesAt_of_listed (List.getElem?_eq_getElem bound)] at failed
      exact ⟨snapshots[i], List.getElem_mem bound, matchesReplay_error failed⟩

/-- The newest snapshot is the last one listed. -/
theorem getLast?_listSnapshots {s : Store} {newest : SnapshotRow}
    (latest : s.latestSnapshot = some newest) : s.listSnapshots.getLast? = some newest := by
  rw [Store.listSnapshots, List.getLast?_reverse]
  exact latest

/-- Two characters were typed, and the second of two snapshots lost one of them. -/
def damaged : Store where
  documentId := "d"
  operations := [⟨1, .insert ⟨⟨1, 1⟩, 97, none, .R, false⟩, 0⟩,
    ⟨2, .insert ⟨⟨2, 1⟩, 98, some ⟨1, 1⟩, .R, false⟩, 0⟩]
  snapshots := [⟨2, [97], []⟩, ⟨1, [97], []⟩]
  currentSeq := 2

theorem bisect_finds_divergence_damaged : ∃ found k bad,
    bisectSnapshotDivergence damaged.loadFullOperationLogWithSeq damaged.listSnapshots = .ok found ∧
      Located damaged.loadFullOperationLogWithSeq damaged.listSnapshots found k bad := by
  have mismatch : matchesReplay damaged.loadFullOperationLogWithSeq ⟨2, [97], []⟩ = .ok false := by
    decide
  have latest : damaged.latestSnapshot = some ⟨2, [97], []⟩ := rfl
  rcases bisect_finds_divergence (getLast?_listSnapshots latest) mismatch with
    located | ⟨message, -, snapshot, member, replayed, ran, unreadable⟩
  · exact located
  · have readable : ∀ snapshot ∈ damaged.listSnapshots,
        Run.ends (matchesReplay damaged.loadFullOperationLogWithSeq snapshot) (fun _ => true) =
          true := by decide
    have ends := readable snapshot member
    rw [matchesReplay, ran] at ends
    simp only [bind, Except.bind, unreadable] at ends
    cases ends

end ConfluenceEditor
