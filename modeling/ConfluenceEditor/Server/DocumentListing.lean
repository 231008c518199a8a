/-
The listing of the documents of a user, page by page.

`listDocumentsForUser` follows the query and `listDocumentsForUserService` what is made of its rows. A row
keeps its time in microseconds, but an item and a cursor have it from a `Date`, cut to milliseconds by the
driver (`Truncates`). So a cursor lies below the row that it was made from, by up to a millisecond, and the
rows in between are not below it: the pages are complete if and only if no page ends in front of such a row
(`listing_is_complete_iff`).
-/

import ConfluenceEditor.Library.Doubles
import ConfluenceEditor.Library.Keyset
import ConfluenceEditor.Server.Gateway
import ConfluenceEditor.Server.ListCursor
import Mathlib.Data.List.Sort
import Mathlib.Data.Prod.Lex
import Mathlib.Data.String.Basic

namespace ConfluenceEditor

namespace Listing

/-! ### The tables -/

/-- A time in microseconds; the columns are only ever written from the clock of the server. -/
structure Timestamp where
  micros : Int
  inRange : -8640000000000000000 ≤ micros ∧ micros ≤ 8640000000000000000
  deriving DecidableEq

structure DocumentRow where
  id : String
  title : String
  ownerId : String
  updatedAt : Timestamp
  currentSeq : Nat
  accessRevokedAt : Option Timestamp
  deriving DecidableEq

structure PermissionRow where
  documentId : String
  userId : String
  role : DocumentRole
  deriving DecidableEq

/-- The rows with their primary keys. -/
structure Tables where
  documents : List DocumentRow
  permissions : List PermissionRow
  documentKey : (documents.map DocumentRow.id).Nodup
  permissionKey : (permissions.map fun p => (p.documentId, p.userId)).Nodup

/-- A document with the permission that the user has on it. -/
structure ListedRow where
  d : DocumentRow
  dp : PermissionRow
  deriving DecidableEq

namespace ListedRow

/-- The columns by which the rows are ordered. -/
def key (row : ListedRow) : Int ×ₗ String := toLex (row.d.updatedAt.micros, row.d.id)

end ListedRow

/-- `documents d JOIN document_permissions dp ON dp.document_id = d.id` -/
def Tables.join (db : Tables) : List ListedRow :=
  db.documents.flatMap fun d =>
    (db.permissions.filter fun dp => dp.documentId = d.id).map fun dp => ⟨d, dp⟩

/-- No roles are all roles. -/
def Visible (userId : String) (roles : List DocumentRole) (row : ListedRow) : Prop :=
  row.dp.userId = userId ∧ row.d.accessRevokedAt = none ∧ (roles = [] ∨ row.dp.role ∈ roles)

instance (userId : String) (roles : List DocumentRole) (row : ListedRow) :
    Decidable (Visible userId roles row) := inferInstanceAs (Decidable (_ ∧ _ ∧ _))

/-- The rows of the documents that the user sees, under one of the roles. -/
def Tables.matching (db : Tables) (userId : String) (roles : List DocumentRole) : List ListedRow :=
  db.join.filter fun row => Visible userId roles row

/-! ### The query -/

structure DocumentListEntry where
  id : String
  title : String
  ownerId : String
  role : DocumentRole
  updatedAt : Date
  currentSeq : Nat
  deriving DecidableEq

/-- The driver reads a time as a `Date`; the database reads a text as an identifier, in its canonical
form. -/
structure Driver where
  toDate : Timestamp → Date
  castId : String → Option String

/-- What is below the millisecond is cut off. -/
def Driver.Truncates (driver : Driver) : Prop :=
  ∀ t, 1000 * (driver.toDate t).ms ≤ t.micros ∧ t.micros < 1000 * ((driver.toDate t).ms + 1)

def Driver.entry (driver : Driver) (row : ListedRow) : DocumentListEntry :=
  ⟨row.d.id, row.d.title, row.d.ownerId, row.dp.role, driver.toDate row.d.updatedAt,
    row.d.currentSeq⟩

structure ListDocumentsInput where
  userId : String
  roles : List DocumentRole
  limit : Nat
  cursor : Option DocumentListCursor

/-- `(d.updated_at, d.id) < (cursor.updatedAt, cursor.id)` -/
def behindCursor (updatedAt : Date) (id : String) (row : ListedRow) : Bool :=
  row.key < toLex (1000 * updatedAt.ms, id)

/-- `ORDER BY d.updated_at DESC, d.id DESC` -/
def newestFirst (a b : ListedRow) : Prop := b.key ≤ a.key

instance : DecidableRel newestFirst := fun a b => inferInstanceAs (Decidable (b.key ≤ a.key))

/-- The entries of the page, and whether there are more. -/
def listDocumentsForUser (driver : Driver) (db : Tables) (input : ListDocumentsInput) :
    Except String (List DocumentListEntry × Bool) :=
  let query (selected : List ListedRow) :=
    let rows := (selected.insertionSort newestFirst).take (input.limit + 1)
    let hasMore := decide (rows.length > input.limit)
    let page := if hasMore then rows.take input.limit else rows
    (page.map driver.entry, hasMore)
  let visible := db.matching input.userId input.roles
  match input.cursor with
  | none => .ok (query visible)
  | some cursor =>
      match driver.castId cursor.id with
      | none => .error ("invalid input syntax for type uuid: " ++ cursor.id)
      | some id => .ok (query (visible.filter (behindCursor cursor.updatedAt id)))

/-! ### The service -/

structure DocumentListItem where
  id : String
  title : String
  role : DocumentRole
  ownerId : String
  updatedAt : String
  currentSeq : Nat
  activeParticipants : Nat
  deriving DecidableEq

inductive ListDocumentsOutcome where
  | invalidCursor
  | ok (documents : List DocumentListItem) (nextCursor : Option String)
  deriving DecidableEq

/-- What the service is called with: a request without its cursor. -/
structure ListRequest where
  userId : String
  roles : List DocumentRole
  limit : Nat

/-- What stands behind the service: the driver with the database, the date formats of the engine, and the
sessions that are open on a document. -/
structure ListContext where
  driver : Driver
  db : Tables
  otherDate : List Char → Option Int
  getActiveParticipants : String → Nat

namespace ListContext

variable (ctx : ListContext)

def item (entry : DocumentListEntry) : DocumentListItem :=
  ⟨entry.id, entry.title, entry.role, entry.ownerId, String.ofList entry.updatedAt.toISOString,
    Doubles.round entry.currentSeq, ctx.getActiveParticipants entry.id⟩

/-- The cursor of the last entry of a page. -/
def nextCursor (items : List DocumentListEntry) (hasMore : Bool) : Option String :=
  if hasMore then items.getLast?.map fun last => encodeDocumentListCursor ⟨last.updatedAt, last.id⟩
  else none

def listDocumentsForUserService (request : ListRequest) (cursor : Option String) :
    Except String ListDocumentsOutcome :=
  let respond (decodedCursor : Option DocumentListCursor) :=
    (listDocumentsForUser ctx.driver ctx.db
      ⟨request.userId, request.roles, request.limit, decodedCursor⟩).map fun (items, hasMore) =>
        ListDocumentsOutcome.ok (items.map ctx.item) (nextCursor items hasMore)
  match cursor with
  | none => respond none
  | some raw =>
      match decodeDocumentListCursor ctx.otherDate raw with
      | none => .ok .invalidCursor
      | some decodedCursor => respond (some decodedCursor)

end ListContext

/-! ### The rows -/

instance : Std.Total newestFirst := ⟨fun a b => le_total b.key a.key⟩

instance : IsTrans ListedRow newestFirst := ⟨fun _ _ _ first second => le_trans second first⟩

/-- A user has at most one permission on a document. -/
theorem nodup_matching (db : Tables) (userId : String) (roles : List DocumentRole) :
    ((db.matching userId roles).map fun row => row.d.id).Nodup := by
  have join : db.join.Pairwise fun a b => a.dp.userId = b.dp.userId → a.d.id ≠ b.d.id := by
    refine List.pairwise_flatMap.mpr ⟨fun d _ => ?_, ?_⟩
    · have permissions := List.pairwise_map.mp db.permissionKey
      refine List.pairwise_map.mpr (List.Pairwise.imp_of_mem ?_ (permissions.filter _))
      intro a b a_mem b_mem distinct user _
      have a_doc : a.documentId = d.id := of_decide_eq_true (List.mem_filter.mp a_mem).2
      have b_doc : b.documentId = d.id := of_decide_eq_true (List.mem_filter.mp b_mem).2
      exact distinct (Prod.ext (a_doc.trans b_doc.symm) user)
    · refine (List.pairwise_map.mp db.documentKey).imp fun distinct x x_mem y y_mem _ => ?_
      have ⟨_, _, x_eq⟩ := List.mem_map.mp x_mem
      have ⟨_, _, y_eq⟩ := List.mem_map.mp y_mem
      rw [← x_eq, ← y_eq]
      exact distinct
  refine List.pairwise_map.mpr (List.Pairwise.imp_of_mem ?_ (join.filter _))
  intro a b a_mem b_mem distinct
  have a_user : Visible userId roles a := of_decide_eq_true (List.mem_filter.mp a_mem).2
  have b_user : Visible userId roles b := of_decide_eq_true (List.mem_filter.mp b_mem).2
  exact distinct (a_user.1.trans b_user.1.symm)

/-- Rows with distinct identifiers have one order. -/
theorem insertionSort_eq {rows selected : List ListedRow}
    (distinct : (rows.map fun row => row.d.id).Nodup) (perm : rows.Perm selected)
    (ordered : rows.Pairwise newestFirst) : selected.insertionSort newestFirst = rows := by
  refine List.Perm.eq_of_pairwise ?_ (List.pairwise_insertionSort newestFirst selected) ordered
    ((List.perm_insertionSort newestFirst selected).trans perm.symm)
  intro a b a_mem b_mem first second
  have a_mem' : a ∈ rows := perm.mem_iff.mpr ((List.mem_insertionSort newestFirst).mp a_mem)
  have same : a.key = b.key := le_antisymm second first
  exact List.inj_on_of_nodup_map distinct a_mem' b_mem (Prod.mk.inj (toLex.injective same)).2

namespace ListContext

variable (ctx : ListContext)

/-- The item of a row. -/
def shown (row : ListedRow) : DocumentListItem := ctx.item (ctx.driver.entry row)

/-- The cursor of a page that ends with the row. -/
def cursorOf (row : ListedRow) : String :=
  encodeDocumentListCursor ⟨ctx.driver.toDate row.d.updatedAt, row.d.id⟩

/-- The rows that the query selects behind a cursor. -/
def below (raw : String) (row : ListedRow) : Bool :=
  match decodeDocumentListCursor ctx.otherDate raw with
  | none => false
  | some cursor =>
      match ctx.driver.castId cursor.id with
      | none => false
      | some id => behindCursor cursor.updatedAt id row

/-- A page that the service answers with, and the cursor of the next one. -/
def pages (request : ListRequest) (cursor : Option String) :
    Option (List DocumentListItem × Option String) :=
  match ctx.listDocumentsForUserService request cursor with
  | .ok (.ok documents nextCursor) => some (documents, nextCursor)
  | _ => none

/-- The database reads the identifiers of its own documents back. -/
def Canonical : Prop := ∀ d ∈ ctx.db.documents, ctx.driver.castId d.id = some d.id

/-- The items and the cursor that are made of the rows of a query. -/
theorem page_eq (limit : Nat) (sorted : List ListedRow) :
    let rows := sorted.take (limit + 1)
    let hasMore := decide (rows.length > limit)
    let page := (if hasMore then rows.take limit else rows).map ctx.driver.entry
    (page.map ctx.item, nextCursor page hasMore) =
      Keyset.page limit ctx.shown ctx.cursorOf sorted := by
  intro rows hasMore page
  have more : hasMore = decide (limit < sorted.length) := by
    show decide ((sorted.take (limit + 1)).length > limit) = _
    rw [List.length_take]
    exact decide_eq_decide.mpr (by omega)
  have cut : page = (sorted.take limit).map ctx.driver.entry := by
    show (if hasMore then (sorted.take (limit + 1)).take limit
      else sorted.take (limit + 1)).map ctx.driver.entry = _
    rw [List.take_take, Nat.min_eq_left (Nat.le_succ limit)]
    by_cases many : limit < sorted.length
    · rw [more, decide_eq_true many, if_pos rfl]
    · rw [more, decide_eq_false many, if_neg Bool.false_ne_true,
        List.take_of_length_le (by omega), List.take_of_length_le (by omega)]
  rw [cut, Keyset.page, nextCursor, more, List.map_map]
  refine Prod.ext rfl ?_
  show (if decide (limit < sorted.length) = true then _ else none) = _
  rw [List.getLast?_map, Option.map_map]
  by_cases many : limit < sorted.length
  · rw [decide_eq_true many, if_pos rfl, if_pos many]
    rfl
  · rw [decide_eq_false many, if_neg Bool.false_ne_true, if_neg many]

variable {ctx} {request : ListRequest} {rows : List ListedRow}

theorem mem_documents {db : Tables} {userId : String} {roles : List DocumentRole} {row : ListedRow}
    (member : row ∈ db.matching userId roles) : row.d ∈ db.documents := by
  have ⟨d, document, joined⟩ := List.mem_flatMap.mp (List.mem_of_mem_filter member)
  have ⟨dp, _, same⟩ := List.mem_map.mp joined
  rw [← same]
  exact document

theorem below_cursorOf {x : ListedRow} (canonical : ctx.driver.castId x.d.id = some x.d.id)
    (row : ListedRow) :
    ctx.below (ctx.cursorOf x) row = behindCursor (ctx.driver.toDate x.d.updatedAt) x.d.id row := by
  rw [below, cursorOf, decode_encode]
  show (match ctx.driver.castId x.d.id with
    | none => false
    | some id => behindCursor _ id row) = _
  rw [canonical]

section Listing

variable (perm : rows.Perm (ctx.db.matching request.userId request.roles))
  (ordered : rows.Pairwise newestFirst)

include perm ordered

theorem pages_none :
    ctx.pages request none = some (Keyset.page request.limit ctx.shown ctx.cursorOf rows) := by
  have distinct := (perm.map fun row => row.d.id).nodup_iff.mpr
    (nodup_matching ctx.db request.userId request.roles)
  rw [← insertionSort_eq distinct perm ordered, ← page_eq]
  rfl

theorem pages_some (canonical : ctx.Canonical) {x : ListedRow} (member : x ∈ rows) :
    ctx.pages request (some (ctx.cursorOf x)) =
      some (Keyset.page request.limit ctx.shown ctx.cursorOf
        (rows.filter (ctx.below (ctx.cursorOf x)))) := by
  have cast := canonical _ (mem_documents (perm.mem_iff.mp member))
  have distinct := (perm.map fun row => row.d.id).nodup_iff.mpr
    (nodup_matching ctx.db request.userId request.roles)
  have selects : ctx.below (ctx.cursorOf x) =
      behindCursor (ctx.driver.toDate x.d.updatedAt) x.d.id := by
    funext row
    exact below_cursorOf cast row
  have sorted := insertionSort_eq (distinct.sublist (List.filter_sublist.map _))
    (perm.filter (ctx.below (ctx.cursorOf x))) (ordered.filter _)
  rw [← sorted, ← page_eq, selects]
  unfold pages listDocumentsForUserService listDocumentsForUser
  simp only [cursorOf, decode_encode, cast]
  rfl

/-- The pages are complete when every cursor separates its row from the next one. -/
theorem follows_iff (positive : 1 ≤ request.limit) (canonical : ctx.Canonical) :
    Keyset.Follows (ctx.pages request) none (rows.map ctx.shown) ↔
      Keyset.AtBoundaries request.limit rows fun x y =>
        ¬ ctx.below (ctx.cursorOf x) x = true ∧ ctx.below (ctx.cursorOf x) y = true := by
  have distinct := (perm.map fun row => row.d.id).nodup_iff.mpr
    (nodup_matching ctx.db request.userId request.roles)
  have items : (rows.map ctx.shown).Nodup := by
    have ids : ((rows.map ctx.shown).map DocumentListItem.id).Nodup := by
      rw [List.map_map]
      exact distinct
    exact ids.of_map
  have closed : rows.Pairwise fun a b =>
      ∀ raw, ctx.below raw a = true → ctx.below raw b = true := by
    refine ordered.imp fun newest raw behind => ?_
    unfold below at behind ⊢
    cases read : decodeDocumentListCursor ctx.otherDate raw with
    | none =>
        rw [read] at behind
        exact behind
    | some cursor =>
        rw [read] at behind
        cases cast : ctx.driver.castId cursor.id with
        | none =>
            simp only [cast] at behind
            exact absurd behind Bool.false_ne_true
        | some id =>
            simp only [cast] at behind ⊢
            exact decide_eq_true (lt_of_le_of_lt newest (of_decide_eq_true behind))
  exact Keyset.follows_iff positive items closed
    (fun x member => pages_some perm ordered canonical member) (pages_none perm ordered)

end Listing

/-- Following the cursors gives every document that matches once, in the declared order, if and only if
at each end of a page the next document is below the row that the cursor names: the last one of the page,
with its time cut to a millisecond. -/
theorem listing_is_complete_iff (positive : 1 ≤ request.limit) (truncates : ctx.driver.Truncates)
    (canonical : ctx.Canonical) (perm : rows.Perm (ctx.db.matching request.userId request.roles))
    (ordered : rows.Pairwise newestFirst) :
    Keyset.Follows (ctx.pages request) none (rows.map ctx.shown) ↔
      Keyset.AtBoundaries request.limit rows fun x y =>
        y.key < toLex (1000 * (ctx.driver.toDate x.d.updatedAt).ms, x.d.id) := by
  have cast : ∀ x ∈ rows, ctx.driver.castId x.d.id = some x.d.id := fun x member =>
    canonical _ (mem_documents (perm.mem_iff.mp member))
  rw [follows_iff perm ordered positive canonical]
  refine forall₅_congr fun i x y ends here => imp_congr_right fun next => ?_
  have member : x ∈ rows := List.mem_of_getElem? here
  show ¬ ctx.below (ctx.cursorOf x) x = true ∧ ctx.below (ctx.cursorOf x) y = true ↔ y.key < toLex _
  rw [below_cursorOf (cast x member), below_cursorOf (cast x member)]
  have own : ¬ behindCursor (ctx.driver.toDate x.d.updatedAt) x.d.id x = true := by
    intro behind
    have less : x.key < toLex _ := of_decide_eq_true behind
    rcases Prod.Lex.lt_iff.mp less with earlier | ⟨_, before⟩
    · exact absurd earlier (not_lt.mpr (truncates x.d.updatedAt).1)
    · exact lt_irrefl _ before
  exact ⟨fun separates => of_decide_eq_true separates.2, fun less => ⟨own, decide_eq_true less⟩⟩

/-! ### Two documents -/

/-- A driver that rounds down, as the one for Postgres does. -/
def roundingDown : Driver where
  toDate t := ⟨t.micros / 1000, by
    have inRange := t.inRange
    omega⟩
  castId := some

theorem truncates_roundingDown : roundingDown.Truncates := by
  intro t
  show 1000 * (t.micros / 1000) ≤ t.micros ∧ t.micros < 1000 * (t.micros / 1000 + 1)
  omega

/-- A document of the user, last changed at this time. -/
def ownRow (id : String) (updatedAt : Timestamp) : ListedRow :=
  ⟨⟨id, "Untitled", "9f6c2b1e-52d4-4c0e-8b57-0a3d5e7f9c11", updatedAt, 0, none⟩,
    ⟨id, "9f6c2b1e-52d4-4c0e-8b57-0a3d5e7f9c11", .owner⟩⟩

def firstRow (t : Timestamp) : ListedRow := ownRow "1c5d6f3a-7b1e-4f0a-9d55-6a2b8c4e0f21" t

def secondRow (t : Timestamp) : ListedRow := ownRow "5e2a9c40-3d8f-4b6e-a1c7-d09e4f7b3c62" t

def twoDocuments (t u : Timestamp) : ListContext where
  driver := roundingDown
  db := ⟨[(firstRow t).d, (secondRow u).d], [(firstRow t).dp, (secondRow u).dp],
    (by decide +kernel : ["1c5d6f3a-7b1e-4f0a-9d55-6a2b8c4e0f21",
      "5e2a9c40-3d8f-4b6e-a1c7-d09e4f7b3c62"].Nodup), by
    show [("1c5d6f3a-7b1e-4f0a-9d55-6a2b8c4e0f21", "9f6c2b1e-52d4-4c0e-8b57-0a3d5e7f9c11"),
      ("5e2a9c40-3d8f-4b6e-a1c7-d09e4f7b3c62", "9f6c2b1e-52d4-4c0e-8b57-0a3d5e7f9c11")].Nodup
    decide +kernel⟩
  otherDate _ := none
  getActiveParticipants _ := 0

/-- The user asks for one document a page. -/
def oneByOne : ListRequest := ⟨"9f6c2b1e-52d4-4c0e-8b57-0a3d5e7f9c11", [], 1⟩

def sooner : Timestamp := ⟨1772368496789400, by decide⟩

def later : Timestamp := ⟨1772368496789500, by decide⟩

def nextSecond : Timestamp := ⟨1772368497789400, by decide⟩

theorem canonical_twoDocuments (t u : Timestamp) : (twoDocuments t u).Canonical := fun _ _ => rfl

/-- Both pages come out when the times are a second apart. -/
theorem listing_is_complete_iff_apart :
    Keyset.Follows ((twoDocuments nextSecond sooner).pages oneByOne) none
      ([firstRow nextSecond, secondRow sooner].map (twoDocuments nextSecond sooner).shown) := by
  refine (listing_is_complete_iff (by decide) truncates_roundingDown (canonical_twoDocuments _ _)
    (List.Perm.of_eq (by decide +kernel)) (by decide +kernel)).mpr ?_
  intro i x y _ here next
  cases i with
  | zero =>
      cases here
      cases next
      decide +kernel
  | succ i => cases next

/-- Two documents were changed within one millisecond: the second one is on no page. -/
theorem second_is_skipped :
    Keyset.Follows ((twoDocuments later sooner).pages oneByOne) none
        [(twoDocuments later sooner).shown (firstRow later)] ∧
      ¬ Keyset.Follows ((twoDocuments later sooner).pages oneByOne) none
        ([firstRow later, secondRow sooner].map (twoDocuments later sooner).shown) := by
  have perm : [firstRow later, secondRow sooner].Perm
      ((twoDocuments later sooner).db.matching oneByOne.userId oneByOne.roles) :=
    List.Perm.of_eq (by decide +kernel)
  have ordered : [firstRow later, secondRow sooner].Pairwise newestFirst := by decide +kernel
  have canonical := canonical_twoDocuments later sooner
  have first := pages_none perm ordered
  have second := pages_some perm ordered canonical (List.mem_cons_self)
  have nothing : [firstRow later, secondRow sooner].filter
      ((twoDocuments later sooner).below ((twoDocuments later sooner).cursorOf (firstRow later))) =
        [] := by
    have selects : (twoDocuments later sooner).below
        ((twoDocuments later sooner).cursorOf (firstRow later)) =
          behindCursor (roundingDown.toDate later) (firstRow later).d.id := by
      funext row
      exact below_cursorOf rfl row
    rw [selects]
    decide +kernel
  rw [Keyset.page_next (by decide) (by decide) rfl] at first
  rw [nothing, Keyset.page_last (Nat.zero_le _)] at second
  have one := Keyset.Follows.next first (.last second)
  refine ⟨one, fun both => ?_⟩
  cases congrArg List.length (one.unique both)

end ListContext

end Listing

end ConfluenceEditor
