/-
Pagination by the last row that was shown.

The rows stand in one order. A page is their first `limit`, or, behind a cursor, the first `limit` of those
that the cursor is above; the next cursor is made from the last row of the page. `Follows` says which items
come out when the cursors are followed until there is none. These are all rows, each once and in order, if
and only if every cursor at which a page ends separates the row that it was made from from the next one
(`follows_iff`).
-/

import Mathlib.Data.List.Nodup
import Mathlib.Tactic.Common

namespace Keyset

variable {α β κ : Type}

/-- The first rows of those that are left, as items, and the cursor of the last of them if there are
more. -/
def page (limit : Nat) (item : α → β) (cursorOf : α → κ) (left : List α) : List β × Option κ :=
  ((left.take limit).map item,
    if limit < left.length then (left.take limit).getLast?.map cursorOf else none)

/-- The items of all pages from a cursor on. -/
inductive Follows (fetch : Option κ → Option (List β × Option κ)) : Option κ → List β → Prop
  | last {cursor : Option κ} {items : List β} (shown : fetch cursor = some (items, none)) :
      Follows fetch cursor items
  | next {cursor : Option κ} {items rest : List β} {following : κ}
      (shown : fetch cursor = some (items, some following))
      (more : Follows fetch (some following) rest) : Follows fetch cursor (items ++ rest)

/-- The relation holds where a page ends and the next one begins. -/
def AtBoundaries (limit : Nat) (rows : List α) (R : α → α → Prop) : Prop :=
  ∀ i x y, limit ∣ i + 1 → rows[i]? = some x → rows[i + 1]? = some y → R x y

variable {limit : Nat} {item : α → β} {cursorOf : α → κ} {below : κ → α → Bool} {rows : List α}
  {fetch : Option κ → Option (List β × Option κ)}

theorem page_last {left : List α} (few : left.length ≤ limit) :
    page limit item cursorOf left = (left.map item, none) := by
  rw [page, List.take_of_length_le few, if_neg (Nat.not_lt.mpr few)]

theorem page_next {left : List α} {x : α} (positive : 0 < limit) (many : limit < left.length)
    (final : left[limit - 1]? = some x) :
    page limit item cursorOf left = ((left.take limit).map item, some (cursorOf x)) := by
  have last : (left.take limit).getLast? = some x := by
    rw [List.getLast?_eq_getElem?, List.length_take, Nat.min_eq_left (Nat.le_of_lt many),
      List.getElem?_take, if_pos (by omega), final]
  rw [page, if_pos many, last, Option.map_some]

/-- What follows is one list. -/
theorem Follows.unique {cursor : Option κ} {items items' : List β}
    (follows : Follows fetch cursor items) (follows' : Follows fetch cursor items') :
    items = items' := by
  induction follows generalizing items' with
  | last shown =>
      cases follows' with
      | last shown' => exact (Prod.mk.inj (Option.some.inj (shown.symm.trans shown'))).1
      | next shown' more' => cases shown.symm.trans shown'
  | next shown more ih =>
      cases follows' with
      | last shown' => cases shown.symm.trans shown'
      | next shown' more' =>
          have ⟨front, cursor_eq⟩ := Prod.mk.inj (Option.some.inj (shown.symm.trans shown'))
          cases cursor_eq
          rw [front, ih more']

/-- The first item of what follows is that of the first row that is left. -/
theorem Follows.head_eq {cursor : Option κ} {items : List β} {left : List α} (positive : 0 < limit)
    (follows : Follows fetch cursor items)
    (fetched : fetch cursor = some (page limit item cursorOf left)) :
    items.head? = (left.map item).head? := by
  cases left with
  | nil =>
      rw [page_last (Nat.zero_le _)] at fetched
      cases follows with
      | last shown =>
          have same := Option.some.inj (shown.symm.trans fetched)
          rw [(Prod.mk.inj same).1]
      | next shown =>
          have same := Option.some.inj (shown.symm.trans fetched)
          cases (Prod.mk.inj same).2
  | cons first left =>
      have ⟨n, size⟩ := Nat.exists_eq_succ_of_ne_zero (Nat.ne_of_gt positive)
      have head : (page limit item cursorOf (first :: left)).1.head? = some (item first) := by
        rw [page, size]
        rfl
      cases follows with
      | last shown =>
          have same := Option.some.inj (shown.symm.trans fetched)
          rw [← same] at head
          exact head
      | next shown =>
          have same := Option.some.inj (shown.symm.trans fetched)
          rw [← same] at head
          exact List.head?_append_of_ne_nil _ (by rintro rfl; cases head) |>.trans head

/-- A cursor that is above the next row and not above its own leaves exactly the rows behind its own. -/
theorem filter_eq_drop (closed : rows.Pairwise fun a b => ∀ c, below c a = true → below c b = true)
    {c : κ} {i : Nat} {x y : α} (here : rows[i]? = some x) (next : rows[i + 1]? = some y)
    (own : ¬ below c x = true) (above : below c y = true) :
    rows.filter (below c) = rows.drop (i + 1) := by
  have ⟨inside, same⟩ := List.getElem?_eq_some_iff.mp here
  have ⟨inside', same'⟩ := List.getElem?_eq_some_iff.mp next
  have early : (rows.take (i + 1)).filter (below c) = [] := by
    rw [List.filter_eq_nil_iff]
    intro a member shows
    have ⟨j, short, found⟩ := List.getElem_of_mem member
    rw [List.getElem_take] at found
    rw [List.length_take] at short
    rcases Nat.lt_or_eq_of_le (show j ≤ i by omega) with before | rfl
    · have later := List.pairwise_iff_getElem.mp closed j i (by omega) inside before c
      rw [found, same] at later
      exact own (later shows)
    · rw [same] at found
      exact own (found ▸ shows)
  have late : (rows.drop (i + 1)).filter (below c) = rows.drop (i + 1) := by
    rw [List.filter_eq_self]
    intro a member
    have ⟨j, short, found⟩ := List.getElem_of_mem member
    rw [List.getElem_drop] at found
    rw [List.length_drop] at short
    rcases Nat.eq_zero_or_pos j with rfl | further
    · rw [← found]
      exact same' ▸ above
    · have later := List.pairwise_iff_getElem.mp closed (i + 1) (i + 1 + j) inside' (by omega)
        (by omega) c
      rw [found, same'] at later
      exact later above
  rw [← List.take_append_drop (i + 1) rows, List.filter_append, early, late, List.nil_append,
    List.take_append_drop]

/-- If the first row that a cursor leaves is the next one, the cursor is above it and not above its own. -/
theorem separates_of_head (nodup : (rows.map item).Nodup) {c : κ} {i : Nat} {x y : α}
    (here : rows[i]? = some x) (next : rows[i + 1]? = some y)
    (head : ((rows.filter (below c)).map item).head? = some (item y)) :
    ¬ below c x = true ∧ below c y = true := by
  have ⟨inside, same⟩ := List.getElem?_eq_some_iff.mp here
  have ⟨inside', same'⟩ := List.getElem?_eq_some_iff.mp next
  rw [List.head?_map, Option.map_eq_some_iff] at head
  have ⟨z, first, shown⟩ := head
  have z_mem : z ∈ rows.filter (below c) := List.mem_of_mem_head? first
  have y_mem : y ∈ rows := same' ▸ List.getElem_mem inside'
  have z_eq : z = y := List.inj_on_of_nodup_map nodup (List.mem_of_mem_filter z_mem) y_mem shown
  rw [z_eq] at first z_mem
  refine ⟨fun shows => ?_, List.of_mem_filter z_mem⟩
  -- then the first row that is left is one up to `x`, and `y` is behind it
  have split := List.take_append_drop (i + 1) rows
  have x_mem : x ∈ (rows.take (i + 1)).filter (below c) := by
    refine List.mem_filter.mpr ⟨?_, shows⟩
    rw [List.mem_iff_getElem?]
    exact ⟨i, by rw [List.getElem?_take, if_pos (Nat.lt_succ_self i), here]⟩
  have ⟨w, early⟩ := Option.isSome_iff_exists.mp (List.isSome_head?.mpr (List.ne_nil_of_mem x_mem))
  have w_eq : w = y := by
    have front : (rows.filter (below c)).head? = some w := by
      rw [← split, List.filter_append, List.head?_append, early, Option.some_or]
    exact Option.some.inj (front.symm.trans first)
  rw [w_eq] at early
  have y_early : y ∈ rows.take (i + 1) := List.mem_of_mem_filter (List.mem_of_mem_head? early)
  have y_late : y ∈ rows.drop (i + 1) := by
    rw [List.mem_iff_getElem?]
    exact ⟨0, by rw [List.getElem?_drop, Nat.add_zero, next]⟩
  have distinct : rows.Nodup := nodup.of_map
  rw [← split] at distinct
  exact List.disjoint_of_nodup_append distinct y_early y_late

/-- The relation holds where a page ends, from the row `k` on. -/
def BoundariesFrom (limit k : Nat) (rows : List α) (R : α → α → Prop) : Prop :=
  ∀ i x y, k ≤ i → limit ∣ i + 1 → rows[i]? = some x → rows[i + 1]? = some y → R x y

theorem boundariesFrom_zero {R : α → α → Prop} :
    BoundariesFrom limit 0 rows R ↔ AtBoundaries limit rows R :=
  ⟨fun separates i x y => separates i x y (Nat.zero_le i), fun separates i x y _ => separates i x y⟩

/-- No page ends in front of a row when one page takes all that are left. -/
theorem boundariesFrom_of_few {k : Nat} {R : α → α → Prop} (start : limit ∣ k)
    (few : rows.length - k ≤ limit) : BoundariesFrom limit k rows R := by
  intro i x y from_k ends _ next
  have ⟨inside, _⟩ := List.getElem?_eq_some_iff.mp next
  have apart : limit ∣ i + 1 - k := Nat.dvd_sub ends start
  have least := Nat.le_of_dvd (by omega) apart
  omega

/-- The first page that ends is the one that begins at `k`. -/
theorem boundariesFrom_iff {k : Nat} {x y : α} {R : α → α → Prop} (positive : 0 < limit)
    (start : limit ∣ k) (here : rows[k + limit - 1]? = some x) (next : rows[k + limit]? = some y) :
    BoundariesFrom limit k rows R ↔ R x y ∧ BoundariesFrom limit (k + limit) rows R := by
  have place : k + limit - 1 + 1 = k + limit := by omega
  constructor
  · intro separates
    refine ⟨separates _ x y (by omega) ?_ here (place.symm ▸ next), fun i a b behind => ?_⟩
    · rw [place]
      exact Nat.dvd_add start (Nat.dvd_refl _)
    · exact separates i a b (by omega)
  · rintro ⟨first, later⟩ i a b from_k ends here' next'
    rcases Nat.lt_or_ge i (k + limit) with within | behind
    · have apart : limit ∣ i + 1 - k := Nat.dvd_sub ends start
      have least := Nat.le_of_dvd (by omega) apart
      have same : i = k + limit - 1 := by omega
      rw [same, here] at here'
      rw [same, place, next] at next'
      cases here'
      cases next'
      exact first
    · exact later i a b behind ends here' next'

/-- What follows a page that is not the last one. -/
theorem follows_next_iff {cursor : Option κ} {following : κ} {items rest : List β}
    (fetched : fetch cursor = some (items, some following)) :
    Follows fetch cursor (items ++ rest) ↔ Follows fetch (some following) rest := by
  refine ⟨fun follows => ?_, .next fetched⟩
  generalize all : items ++ rest = shown at follows
  cases follows with
  | last shown =>
      have same := Option.some.inj (fetched.symm.trans shown)
      cases (Prod.mk.inj same).2
  | next shown more =>
      have ⟨front, cursor_eq⟩ := Prod.mk.inj (Option.some.inj (fetched.symm.trans shown))
      rw [← front] at all
      rw [List.append_cancel_left all, Option.some.inj cursor_eq]
      exact more

section Pages

variable (positive : 0 < limit) (nodup : (rows.map item).Nodup)
  (closed : rows.Pairwise fun a b => ∀ c, below c a = true → below c b = true)
  (later : ∀ x ∈ rows, fetch (some (cursorOf x)) =
    some (page limit item cursorOf (rows.filter (below (cursorOf x)))))

include positive nodup closed later

/-- From the first row of a page on. -/
theorem follows_drop_iff {cursor : Option κ} {k : Nat} (start : limit ∣ k)
    (fetched : fetch cursor = some (page limit item cursorOf (rows.drop k))) :
    Follows fetch cursor ((rows.drop k).map item) ↔ BoundariesFrom limit k rows fun x y =>
      ¬ below (cursorOf x) x = true ∧ below (cursorOf x) y = true := by
  induction size : rows.length - k using Nat.strongRecOn generalizing cursor k with
  | ind n ih =>
      have length : (rows.drop k).length = n := by rw [List.length_drop, size]
      by_cases few : n ≤ limit
      · rw [page_last (by rw [length]; exact few)] at fetched
        exact iff_of_true (.last fetched) (boundariesFrom_of_few start (size ▸ few))
      · have many : limit < n := Nat.lt_of_not_le few
        have inside : k + limit - 1 < rows.length := by omega
        have inside' : k + limit < rows.length := by omega
        have place : k + limit - 1 + 1 = k + limit := by omega
        have here : rows[k + limit - 1]? = some rows[k + limit - 1] := List.getElem?_eq_getElem inside
        have next : rows[k + limit]? = some rows[k + limit] := List.getElem?_eq_getElem inside'
        have behind : rows[k + limit - 1 + 1]? = some rows[k + limit] := by rw [place, next]
        have final : (rows.drop k)[limit - 1]? = some rows[k + limit - 1] := by
          rw [List.getElem?_drop, ← Nat.add_sub_assoc positive, here]
        have fetched' := later _ (List.getElem_mem inside)
        have whole : (rows.drop k).map item =
            ((rows.drop k).take limit).map item ++ (rows.drop (k + limit)).map item := by
          rw [← List.map_append, ← List.drop_drop, List.take_append_drop]
        rw [page_next positive (by rw [length]; exact many) final] at fetched
        rw [whole, follows_next_iff fetched, boundariesFrom_iff positive start here next]
        -- the pages that follow are those of the rows behind, once the cursor separates
        have rest (own : ¬ below (cursorOf rows[k + limit - 1]) rows[k + limit - 1] = true)
            (above : below (cursorOf rows[k + limit - 1]) rows[k + limit] = true) :
            Follows fetch (some (cursorOf rows[k + limit - 1])) ((rows.drop (k + limit)).map item) ↔
              BoundariesFrom limit (k + limit) rows fun x y =>
                ¬ below (cursorOf x) x = true ∧ below (cursorOf x) y = true := by
          rw [filter_eq_drop closed here behind own above, place] at fetched'
          exact ih _ (by omega) (Nat.dvd_add start (Nat.dvd_refl _)) fetched' rfl
        constructor
        · intro more
          have first : ((rows.drop (k + limit)).map item).head? = some (item rows[k + limit]) := by
            rw [List.head?_map, List.head?_drop, next, Option.map_some]
          have head := (more.head_eq positive fetched').symm.trans first
          have ⟨own, above⟩ := separates_of_head nodup here behind head
          exact ⟨⟨own, above⟩, (rest own above).mp more⟩
        · rintro ⟨⟨own, above⟩, separates⟩
          exact (rest own above).mpr separates

theorem follows_iff (first : fetch none = some (page limit item cursorOf rows)) :
    Follows fetch none (rows.map item) ↔ AtBoundaries limit rows fun x y =>
      ¬ below (cursorOf x) x = true ∧ below (cursorOf x) y = true := by
  have all := follows_drop_iff positive nodup closed later (k := 0) (Nat.dvd_zero _)
    (by rwa [List.drop_zero])
  rwa [List.drop_zero, boundariesFrom_zero] at all

end Pages

end Keyset
