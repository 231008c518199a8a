/-
The cursors of the listing of documents.

A cursor is the base64 of the UTF-8 of a JSON object with a time and an identifier. The time is a `Date` of
the language, a number of milliseconds within its range. Every cursor that is written is read back
(`decode_encode`); how the engine reads a text that is no `toISOString` is left open (`otherDate`).
-/

import ConfluenceEditor.Library.Base64
import ConfluenceEditor.Library.IsoDate
import ConfluenceEditor.Library.Json
import ConfluenceEditor.Protocol.RoundTrip

namespace ConfluenceEditor

open Codec (textEncode textDecode scalars)

/-- A valid `Date`. -/
structure Date where
  ms : Int
  inRange : -8640000000000000 ≤ ms ∧ ms ≤ 8640000000000000
  deriving DecidableEq

namespace Date

def ofMs? (ms : Int) : Option Date :=
  if inRange : -8640000000000000 ≤ ms ∧ ms ≤ 8640000000000000 then some ⟨ms, inRange⟩ else none

def toISOString (date : Date) : List Char := IsoDate.toISOString date.ms

/-- `new Date(text)`; `none` for an invalid one. -/
def ofText? (otherDate : List Char → Option Int) (text : List Char) : Option Date :=
  (IsoDate.parse otherDate text).bind ofMs?

theorem ofText_toISOString (otherDate : List Char → Option Int) (date : Date) :
    ofText? otherDate date.toISOString = some date := by
  rw [ofText?, toISOString, IsoDate.parse_toISOString otherDate date.inRange, Option.bind_some,
    ofMs?, dif_pos date.inRange]

end Date

/-! ### Bytes as text -/

/-- How many bytes a sequence still needs, between which bounds the next one has to be, and the bits that
were read. -/
structure Utf8State where
  needed : Nat
  low : Nat
  high : Nat
  bits : Nat
  deriving DecidableEq, Repr

def replacement : Char := Char.ofNat 0xfffd

/-- The first byte of a sequence. -/
def startUtf8 (b : Nat) : List Char × Option Utf8State :=
  if b < 0x80 then ([Char.ofNat b], none)
  else if 0xc2 ≤ b ∧ b ≤ 0xdf then ([], some ⟨1, 0x80, 0xbf, b - 0xc0⟩)
  else if 0xe0 ≤ b ∧ b ≤ 0xef then
    ([], some ⟨2, if b = 0xe0 then 0xa0 else 0x80, if b = 0xed then 0x9f else 0xbf, b - 0xe0⟩)
  else if 0xf0 ≤ b ∧ b ≤ 0xf4 then
    ([], some ⟨3, if b = 0xf0 then 0x90 else 0x80, if b = 0xf4 then 0x8f else 0xbf, b - 0xf0⟩)
  else ([replacement], none)

/-- Every sequence that breaks off is replaced by one character. -/
def replaceMalformed : Option Utf8State → List UInt8 → List Char
  | none, [] => []
  | some _, [] => [replacement]
  | none, b :: bytes =>
      (startUtf8 b.toNat).1 ++ replaceMalformed (startUtf8 b.toNat).2 bytes
  | some s, b :: bytes =>
      if s.low ≤ b.toNat ∧ b.toNat ≤ s.high then
        let bits := s.bits * 64 + (b.toNat - 0x80)
        if s.needed = 1 then Char.ofNat bits :: replaceMalformed none bytes
        else replaceMalformed (some ⟨s.needed - 1, 0x80, 0xbf, bits⟩) bytes
      else
        replacement :: ((startUtf8 b.toNat).1 ++ replaceMalformed (startUtf8 b.toNat).2 bytes)

/-- `Buffer.toString("utf8")` -/
def utf8ToString (bytes : List UInt8) : List Char :=
  match textDecode bytes with
  | some text => text
  | none => replaceMalformed none bytes

/-! ### Cursors -/

structure DocumentListCursor where
  updatedAt : Date
  id : String
  deriving DecidableEq

def encodeDocumentListCursor (cursor : DocumentListCursor) : String :=
  String.ofList (Base64.encode (textEncode (Json.stringify
    [("updatedAt".toList, cursor.updatedAt.toISOString), ("id".toList, cursor.id.toList)])))

/-- The last member with this key. -/
def property (members : List (List Nat × Json.Value)) (key : String) : Option Json.Value :=
  (members.reverse.find? fun member => member.1 = key.toList.map Char.toNat).map Prod.snd

/-- A lone surrogate of the identifier could not be sent to the database and is replaced at once. -/
def decodeDocumentListCursor (otherDate : List Char → Option Int) (raw : String) :
    Option DocumentListCursor :=
  match Json.parse (utf8ToString (Base64.decode raw.toList)) with
  | some (.object members) =>
      match property members "updatedAt", property members "id" with
      | some (.string updatedAt), some (.string id) =>
          (Date.ofText? otherDate (scalars updatedAt)).map fun date =>
            ⟨date, String.ofList (scalars id)⟩
      | _, _ => none
  | _ => none

theorem decode_encode (otherDate : List Char → Option Int) (cursor : DocumentListCursor) :
    decodeDocumentListCursor otherDate (encodeDocumentListCursor cursor) = some cursor := by
  have bytes : ∀ text, utf8ToString (textEncode text) = text := by
    intro text
    rw [utf8ToString, Codec.textDecode_textEncode]
  rw [decodeDocumentListCursor, encodeDocumentListCursor, String.toList_ofList,
    Base64.decode_encode, bytes, Json.parse_stringify (List.cons_ne_nil _ _)]
  show (Date.ofText? otherDate (scalars (cursor.updatedAt.toISOString.map Char.toNat))).map
    (fun date => DocumentListCursor.mk date (String.ofList (scalars (cursor.id.toList.map Char.toNat)))) =
      some cursor
  rw [Codec.scalars_map_toNat, Codec.scalars_map_toNat, Date.ofText_toISOString, Option.map_some,
    String.ofList_toList]

end ConfluenceEditor
