/-
Round trips on the channels of control and presence.

Each decoder reads back what its encoder writes. A UUID comes back because its text is made of lower
case digits, and the operations of a chunk because each of their frames does; such a frame is short,
so its length can be written. Together they give `channels_round_trip`.
-/

import ConfluenceEditor.Protocol.PresenceCodec
import ConfluenceEditor.Protocol.RoundTrip

namespace ConfluenceEditor

open Wire

namespace Codec

/-! ### What a side can send -/

/-- A UUID in its canonical form, in lower case. -/
def CanonicalUuid (uuid : String) : Prop :=
  (uuidDigits uuid).isSome ∧ ∀ c ∈ uuid.toList, c.isUpper = false

instance (uuid : String) : Decidable (CanonicalUuid uuid) :=
  have : Decidable (∀ c ∈ uuid.toList, c.isUpper = false) := List.decidableBAll _ _
  inferInstanceAs (Decidable (_ ∧ _))

/-- The length of the text can be written. -/
def SafeText (text : String) : Prop := (textEncode text.toList).length ≤ MAX_SAFE_INTEGER

/-- What a side can put into a frame of the control channel. -/
def ControlLegal (direction : Direction) : WireControlMessage → Prop
  | .hello documentId ticket lastServerSeq unacked clientCapabilities =>
      direction = .clientOrigin ∧ CanonicalUuid documentId ∧ ticket.length ≤ MAX_SAFE_INTEGER ∧
        lastServerSeq ≤ MAX_SAFE_INTEGER ∧ unacked.length ≤ MAX_SAFE_INTEGER ∧
        (∀ id ∈ unacked, SafeStamp id) ∧ clientCapabilities ≤ MAX_SAFE_INTEGER
  | .welcome sessionId replicaId _ serverSeq _ participants =>
      direction = .serverOrigin ∧ CanonicalUuid sessionId ∧ replicaId ≤ MAX_SAFE_INTEGER ∧
        serverSeq ≤ MAX_SAFE_INTEGER ∧ participants.length ≤ MAX_SAFE_INTEGER ∧
        ∀ p ∈ participants, p.replicaId ≤ MAX_SAFE_INTEGER ∧ CanonicalUuid p.userId ∧
          SafeText p.displayName
  | .snapshot seq _ body =>
      direction = .serverOrigin ∧ seq ≤ MAX_SAFE_INTEGER ∧ body.length ≤ MAX_SAFE_INTEGER
  | .catchupBegin fromSeq toSeq totalOps =>
      direction = .serverOrigin ∧ fromSeq ≤ MAX_SAFE_INTEGER ∧ toSeq ≤ MAX_SAFE_INTEGER ∧
        totalOps ≤ MAX_SAFE_INTEGER
  | .catchupChunk throughSeq ops =>
      direction = .serverOrigin ∧ throughSeq ≤ MAX_SAFE_INTEGER ∧ ops.length ≤ MAX_SAFE_INTEGER ∧
        ∀ op ∈ ops, Sendable .clientOrigin (catchupMessage op)
  | .catchupEnd toSeq totalOps =>
      direction = .serverOrigin ∧ toSeq ≤ MAX_SAFE_INTEGER ∧ totalOps ≤ MAX_SAFE_INTEGER
  | .alreadyHave alreadyHave =>
      direction = .serverOrigin ∧ alreadyHave.length ≤ MAX_SAFE_INTEGER ∧
        ∀ id ∈ alreadyHave, SafeStamp id
  | .syncComplete lastServerSeq resentCount =>
      direction = .clientOrigin ∧ lastServerSeq ≤ MAX_SAFE_INTEGER ∧
        resentCount ≤ MAX_SAFE_INTEGER
  | .permissionChanged _ effectiveAtSeq =>
      direction = .serverOrigin ∧ effectiveAtSeq ≤ MAX_SAFE_INTEGER
  | .error code _ message => direction = .serverOrigin ∧ code ≤ 0xff ∧ SafeText message
  | .ping clientTimeMs lastAppliedSeq =>
      direction = .clientOrigin ∧ clientTimeMs ≤ MAX_SAFE_INTEGER ∧
        lastAppliedSeq ≤ MAX_SAFE_INTEGER
  | .pong clientTimeMs serverSeq serverTimeMs =>
      direction = .serverOrigin ∧ clientTimeMs ≤ MAX_SAFE_INTEGER ∧
        serverSeq ≤ MAX_SAFE_INTEGER ∧ serverTimeMs ≤ MAX_SAFE_INTEGER
  | .leave lastAppliedSeq => direction = .clientOrigin ∧ lastAppliedSeq ≤ MAX_SAFE_INTEGER
  | .goodbye _ retryAfterMs => direction = .serverOrigin ∧ retryAfterMs ≤ MAX_SAFE_INTEGER

/-- A participant that can be written. -/
def SafeEntry (p : PresenceRosterEntry) : Prop :=
  p.replicaId ≤ MAX_SAFE_INTEGER ∧ CanonicalUuid p.userId ∧ SafeText p.displayName

/-- What a side can put into a frame of the presence channel. -/
def PresenceLegal (direction : Direction) : PresenceMessage → Prop
  | .presenceUpdate replicaId anchor focus _ =>
      replicaId ≤ MAX_SAFE_INTEGER ∧ (∀ id ∈ anchor, SafeStamp id) ∧ ∀ id ∈ focus, SafeStamp id
  | .presenceJoin entry => direction = .serverOrigin ∧ SafeEntry entry
  | .presenceLeave replicaId _ => direction = .serverOrigin ∧ replicaId ≤ MAX_SAFE_INTEGER
  | .presenceRoster participants =>
      direction = .serverOrigin ∧ participants.length ≤ MAX_SAFE_INTEGER ∧
        ∀ p ∈ participants, SafeEntry p

/-- What arrives: an update from a client has no replica id. -/
def received (direction : Direction) : PresenceMessage → PresenceMessage
  | .presenceUpdate replicaId anchor focus collapsed =>
      .presenceUpdate (if direction = .serverOrigin then replicaId else 0) anchor focus collapsed
  | msg => msg

/-! ### Strings and UUIDs -/

theorem codes_string {value : String} (safe : SafeText value) :
    Codes (encodeString value) decodeString value := by
  refine (codes_varint safe).bind ((codes_bytes _).done ?_)
  simp only [textDecode_textEncode, String.ofList_toList]

/-- A digit is an ASCII character. -/
theorem ascii_of_hexValue {c : Char} {v : Nat} (found : hexValue c = some v) : c.toNat < 128 := by
  have below : ∀ d : Char, c ≤ d → c.toNat ≤ d.toNat := fun d le => UInt32.le_iff_toNat_le.mp le
  unfold hexValue at found
  split_ifs at found with decimal lower upper
  · exact lt_of_le_of_lt (below _ decimal.2) (by decide)
  · exact lt_of_le_of_lt (below _ lower.2) (by decide)
  · exact lt_of_le_of_lt (below _ upper.2) (by decide)

/-- A digit in lower case is the character of its value. -/
theorem digitChar_of_hexValue {c : Char} {v : Nat} (found : hexValue c = some v)
    (lower : c.isUpper = false) : v < 16 ∧ Nat.digitChar v = c := by
  have all : ∀ n < 128, (Char.ofNat n).isUpper = false → ∀ v ∈ hexValue (Char.ofNat n),
      v < 16 ∧ Nat.digitChar v = Char.ofNat n := by decide +kernel
  have here := all c.toNat (ascii_of_hexValue found)
  rw [Char.ofNat_toNat] at here
  exact here lower v found

theorem hexGroup_spec {n : Nat} {text rest : List Char} {values : List Nat}
    (found : hexGroup n text = some (values, rest)) (lower : ∀ c ∈ text, c.isUpper = false) :
    text = values.map Nat.digitChar ++ rest ∧ values.length = n ∧ ∀ v ∈ values, v < 16 := by
  induction n generalizing text values with
  | zero =>
      obtain ⟨rfl, rfl⟩ := Prod.mk.inj (Option.some.inj found)
      exact ⟨rfl, rfl, nofun⟩
  | succ n ih =>
      cases text with
      | nil => cases found
      | cons digit text =>
          obtain ⟨v, value, found⟩ := Option.bind_eq_some_iff.mp found
          obtain ⟨⟨values', rest'⟩, group, found⟩ := Option.bind_eq_some_iff.mp found
          obtain ⟨rfl, rfl⟩ := Prod.mk.inj (Option.some.inj found)
          obtain ⟨small, char⟩ := digitChar_of_hexValue value (lower digit List.mem_cons_self)
          obtain ⟨same, length, all⟩ := ih group fun c member => lower c (List.mem_cons_of_mem _ member)
          refine ⟨?_, by rw [List.length_cons, length], List.forall_mem_cons.mpr ⟨small, all⟩⟩
          rw [List.map_cons, char, List.cons_append, ← same]

/-- The bytes of pairs of digits. -/
def hexPairs : List Nat → List UInt8
  | high :: low :: digits => UInt8.ofNat (high * 16 + low) :: hexPairs digits
  | _ => []

theorem writes_hex (digits : List Nat) : Writes (writeHex digits) (hexPairs digits) := by
  fun_induction hexPairs digits with
  | case1 high low digits ih => exact (writes_byte _).bind ih
  | case2 digits short =>
      unfold writeHex
      split
      · exact absurd rfl (short _ _ _)
      · exact writes_pure

theorem hexByte_ofNat {high low : Nat} (small : high < 16) (small' : low < 16) :
    hexByte (UInt8.ofNat (high * 16 + low)) = [Nat.digitChar high, Nat.digitChar low] := by
  have byte : (UInt8.ofNat (high * 16 + low)).toNat = high * 16 + low := by
    rw [UInt8.toNat_ofNat', Nat.mod_eq_of_lt]
    omega
  have first : (high * 16 + low) / 16 = high := by omega
  have second : (high * 16 + low) % 16 = low := by omega
  rw [hexByte, byte, first, second]

/-- The digits of the bytes are the digits. -/
theorem hexByte_hexPairs {n : Nat} {digits : List Nat} (even : digits.length = 2 * n)
    (small : ∀ v ∈ digits, v < 16) :
    (hexPairs digits).length = n ∧ (hexPairs digits).flatMap hexByte = digits.map Nat.digitChar := by
  induction n generalizing digits with
  | zero =>
      obtain rfl := List.length_eq_zero_iff.mp even
      exact ⟨rfl, rfl⟩
  | succ n ih =>
      match digits, even, small with
      | high :: low :: digits, even, small =>
          simp only [List.length_cons] at even
          obtain ⟨length, chars⟩ := ih (by omega) fun v member =>
            small v (List.mem_cons_of_mem _ (List.mem_cons_of_mem _ member))
          rw [hexPairs, List.length_cons, length, List.flatMap_cons, chars,
            hexByte_ofNat (small high List.mem_cons_self)
              (small low (List.mem_cons_of_mem _ List.mem_cons_self))]
          exact ⟨rfl, rfl⟩

/-- Groups of digits, with dashes between them. -/
def dashed : List Nat → List Char → List Char
  | [], _ => []
  | [n], hex => hex.take n
  | n :: groups, hex => hex.take n ++ '-' :: dashed groups (hex.drop n)

theorem hexGroups_spec {groups : List Nat} {text : List Char} {digits : List Nat}
    (found : hexGroups groups text = some digits) (lower : ∀ c ∈ text, c.isUpper = false) :
    text = dashed groups (digits.map Nat.digitChar) ∧ digits.length = groups.sum ∧
      ∀ v ∈ digits, v < 16 := by
  induction groups generalizing text digits with
  | nil =>
      cases text with
      | nil =>
          obtain rfl := Option.some.inj found
          exact ⟨rfl, rfl, nofun⟩
      | cons c text => cases found
  | cons n groups ih =>
      cases groups with
      | nil =>
          obtain ⟨⟨values, rest⟩, group, found⟩ := Option.bind_eq_some_iff.mp found
          simp only at found
          split_ifs at found with ended
          obtain rfl := Option.some.inj found
          obtain ⟨same, length, small⟩ := hexGroup_spec group lower
          refine ⟨?_, by simp [length], small⟩
          rw [same, ended, List.append_nil, dashed, List.take_of_length_le (by simp [length])]
      | cons m groups =>
          obtain ⟨⟨values, rest⟩, group, found⟩ := Option.bind_eq_some_iff.mp found
          simp only at found
          split at found
          · rename_i rest'
            obtain ⟨more, later, found⟩ := Option.bind_eq_some_iff.mp found
            obtain rfl := Option.some.inj found
            obtain ⟨same, length, small⟩ := hexGroup_spec group lower
            obtain ⟨same', length', small'⟩ := ih later fun c member => lower c (by
              rw [same]
              exact List.mem_append_right _ (List.mem_cons_of_mem _ member))
            have whole : (values.map Nat.digitChar).length = n := by rw [List.length_map, length]
            refine ⟨?_, ?_, List.forall_mem_append.mpr ⟨small, small'⟩⟩
            · have unfolded : dashed (n :: m :: groups) ((values ++ more).map Nat.digitChar) =
                  ((values ++ more).map Nat.digitChar).take n ++
                    '-' :: dashed (m :: groups) (((values ++ more).map Nat.digitChar).drop n) := rfl
              rw [unfolded, List.map_append, List.take_left' whole, List.drop_left' whole, ← same']
              exact same
            · rw [List.length_append, length, length']
              exact List.sum_cons.symm
          · cases found

/-- The text form has the dashes of the pattern. -/
theorem uuidText_eq (bytes : List UInt8) :
    uuidText bytes = dashed [8, 4, 4, 4, 12] (bytes.flatMap hexByte) := by
  simp [uuidText, dashed, List.drop_drop]

theorem codes_uuid {uuid : String} (canonical : CanonicalUuid uuid) :
    Codes (encodeUuid uuid) decodeUuid uuid := by
  obtain ⟨digits, found⟩ := Option.isSome_iff_exists.mp canonical.1
  obtain ⟨text, length, small⟩ := hexGroups_spec found canonical.2
  obtain ⟨sixteen, chars⟩ := hexByte_hexPairs (n := 16) length small
  have back : String.ofList (uuidText (hexPairs digits)) = uuid := by
    rw [uuidText_eq, chars, ← text, String.ofList_toList]
  have reads : Reads decodeUuid (hexPairs digits) uuid := by
    have taken := reads_bytes (hexPairs digits)
    rw [sixteen] at taken
    have last : Reads (pure (String.ofList (uuidText (hexPairs digits))) : ByteReader String) []
        uuid := back ▸ reads_pure _
    exact List.append_nil (hexPairs digits) ▸ taken.bind last
  refine ⟨hexPairs digits, ?_, reads⟩
  unfold encodeUuid
  rw [found]
  exact writes_hex digits

/-! ### The operations of a chunk -/

theorem writesUpTo_byte (b : Nat) : WritesUpTo 1 (writeByte b) := ⟨_, writes_byte b, le_refl _⟩

theorem writesUpTo_varintLoop (k : Nat) {v : Nat} (fits : v < 128 ^ (k + 1)) :
    WritesUpTo (k + 1) (writeVarintLoop v) := by
  induction k generalizing v with
  | zero =>
      have last : v < 128 := by simpa using fits
      rw [writeVarintLoop, dif_pos (Nat.div_eq_of_lt last)]
      exact writesUpTo_byte _
  | succ k ih =>
      rw [writeVarintLoop]
      split_ifs with last
      · obtain ⟨bytes, writes, small⟩ := writesUpTo_byte (v % 128)
        exact ⟨bytes, writes, by omega⟩
      · have fits' : v / 128 < 128 ^ (k + 1) := by
          rw [Nat.div_lt_iff_lt_mul (by decide), ← Nat.pow_succ]
          exact fits
        have both := (writesUpTo_byte (v % 128 ||| 0x80)).bind (ih fits')
        rw [Nat.add_comm] at both
        exact both

theorem writesUpTo_varint {v : Nat} (safe : v ≤ MAX_SAFE_INTEGER) :
    WritesUpTo 10 (writeVarint v) := by
  have bound : MAX_SAFE_INTEGER < 128 ^ 10 := by decide
  rw [writeVarint, if_neg (Nat.not_lt.mpr safe)]
  exact writesUpTo_varintLoop 9 (by omega)

theorem writesUpTo_stamp {id : Identifier} (safe : SafeStamp id) :
    WritesUpTo 20 (encodeStamp id) :=
  (writesUpTo_varint safe.1).bind (writesUpTo_varint safe.2)

theorem writesUpTo_optionalStamp {id : Option Identifier} (safe : ∀ i ∈ id, SafeStamp i) :
    WritesUpTo 20 (encodeOptionalStamp id) := by
  cases id with
  | none => exact writesUpTo_pure 20
  | some i => exact writesUpTo_stamp (safe i rfl)

theorem writesUpTo_target {id target : Identifier} (stamp : SafeStamp id)
    (named : SafeStamp target) : WritesUpTo 61 (encodeTargetPayload 0 id target) := by
  have whole := (writesUpTo_varint (v := 0) (by decide)).bind ((writesUpTo_stamp named).bind
    ((writesUpTo_varint stamp.1).bind (writesUpTo_varint stamp.2)))
  obtain ⟨bytes, writes, small⟩ := whole
  exact ⟨bytes, writes, by omega⟩

/-- The payload of one operation is short. -/
theorem writesUpTo_catchup {op : Operation}
    (sendable : Sendable .clientOrigin (catchupMessage op)) :
    WritesUpTo 61 (encodePayload (catchupMessage op)) := by
  cases op with
  | insert op =>
      obtain ⟨-, -, stamp, parent, value⟩ := sendable
      exact (writesUpTo_varint (v := 0) (by decide)).bind ((writesUpTo_byte _).bind
        ((writesUpTo_stamp stamp).bind ((writesUpTo_optionalStamp parent).bind
          (writesUpTo_varint value))))
  | delete op => exact writesUpTo_target sendable.2.2.1 sendable.2.2.2
  | undelete op => exact writesUpTo_target sendable.2.2.1 sendable.2.2.2

theorem encodeCatchupOperation_spec {op : Operation}
    (sendable : Sendable .clientOrigin (catchupMessage op)) :
    ∃ frame, encodeCatchupOperation op = .ok frame ∧ frame.length ≤ 64 ∧
      decodeCatchupOperation frame = .ok op := by
  obtain ⟨frame, encoded, decoded⟩ := decodeFrame_encodeFrame sendable
  refine ⟨frame, encoded, ?_, ?_⟩
  · have whole := (writesUpTo_byte PROTOCOL_VERSION).bind ((writesUpTo_byte OPS_CHANNEL).bind
      ((writesUpTo_byte (messageTypeOf (catchupMessage op))).bind (writesUpTo_catchup sendable)))
    obtain ⟨bytes, writes, small⟩ := whole
    have same : encodeFrame (catchupMessage op) = .ok bytes := by
      rw [encodeFrame, writes []]
      rfl
    obtain rfl := Except.ok.inj (same.symm.trans encoded)
    exact small
  · unfold decodeCatchupOperation
    rw [decoded]
    cases op <;> rfl

theorem codes_chunkEntry {op : Operation}
    (sendable : Sendable .clientOrigin (catchupMessage op)) :
    Codes (encodeChunkEntry op) decodeChunkEntry op := by
  obtain ⟨frame, encoded, short, decoded⟩ := encodeCatchupOperation_spec sendable
  have fits : frame.length ≤ MAX_SAFE_INTEGER := le_trans short (by decide)
  unfold encodeChunkEntry decodeChunkEntry
  rw [encoded]
  refine Codes.bind ((codes_varint fits).mapError _) (((codes_bytes frame).mapError _).done ?_)
  rw [decoded]
  rfl

/-! ### The payloads -/

theorem codes_known {α : Type} {code : α → Nat} {known : Nat → Option α} {a : α}
    (small : code a < 256) (back : known (code a) = some a) (reason description : String) :
    Codes (writeByte (code a)) (readKnown known reason description) a := by
  refine (codes_byte small).done ?_
  simp only [back]

theorem codes_sessionRole (role : SessionRole) :
    Codes (writeByte (sessionRoleCode role)) readSessionRole role := by
  refine codes_known ?_ ?_ _ _
  · cases role <;> decide
  · cases role <;> rfl

theorem codes_syncMode (syncMode : SyncMode) (reason description : String) :
    Codes (writeByte (syncModeCode syncMode)) (readKnown syncModeOf reason description)
      syncMode := by
  refine codes_known ?_ ?_ _ _
  · cases syncMode <;> decide
  · cases syncMode <;> rfl

theorem codes_snapshotForm (form : SnapshotForm) (reason description : String) :
    Codes (writeByte (snapshotFormCode form)) (readKnown snapshotFormOf reason description)
      form := by
  refine codes_known ?_ ?_ _ _
  · cases form <;> decide
  · cases form <;> rfl

theorem codes_goodbyeReason (goodbye : GoodbyeReason) (reason description : String) :
    Codes (writeByte (goodbyeReasonCode goodbye)) (readKnown goodbyeReasonOf reason description)
      goodbye := by
  refine codes_known ?_ ?_ _ _
  · cases goodbye <;> decide
  · cases goodbye <;> rfl

theorem codes_leaveReason (leave : PresenceLeaveReason) (reason description : String) :
    Codes (writeByte (presenceLeaveReasonCode leave))
      (readKnown presenceLeaveReasonOf reason description) leave := by
  refine codes_known ?_ ?_ _ _
  · cases leave <;> decide
  · cases leave <;> rfl

section Flags

theorem permissionChangedFlags_small (hasRole : Bool) : permissionChangedFlags hasRole < 256 := by
  cases hasRole <;> decide

theorem permissionChangedFlags_known (hasRole : Bool) (reason message : String) :
    checkNoReservedBits (permissionChangedFlags hasRole) PERMISSION_CHANGED_FLAG_HAS_ROLE reason
      message = pure () := by
  cases hasRole <;> exact if_neg (by decide)

theorem permissionChangedFlags_role (hasRole : Bool) :
    decide (permissionChangedFlags hasRole &&& PERMISSION_CHANGED_FLAG_HAS_ROLE ≠ 0) = hasRole := by
  cases hasRole <;> decide

variable (anchor focus collapsed : Bool)

theorem presenceFlags_small : presenceFlags anchor focus collapsed < 256 := by
  cases anchor <;> cases focus <;> cases collapsed <;> decide

theorem presenceFlags_known (reason message : String) :
    checkNoReservedBits (presenceFlags anchor focus collapsed) PRESENCE_KNOWN_FLAG_BITS reason
      message = pure () := by
  cases anchor <;> cases focus <;> cases collapsed <;> exact if_neg (by decide)

theorem presenceFlags_anchor :
    decide (presenceFlags anchor focus collapsed &&& FLAG_ANCHOR_PRESENT ≠ 0) = anchor := by
  cases anchor <;> cases focus <;> cases collapsed <;> decide

theorem presenceFlags_focus :
    decide (presenceFlags anchor focus collapsed &&& FLAG_FOCUS_PRESENT ≠ 0) = focus := by
  cases anchor <;> cases focus <;> cases collapsed <;> decide

theorem presenceFlags_collapsed :
    decide (presenceFlags anchor focus collapsed &&& FLAG_COLLAPSED ≠ 0) = collapsed := by
  cases anchor <;> cases focus <;> cases collapsed <;> decide

end Flags

section Payloads

variable {direction : Direction}

theorem codes_pair {msg : Nat → Nat → WireControlMessage} {first second : Nat}
    (safe : first ≤ MAX_SAFE_INTEGER) (safe' : second ≤ MAX_SAFE_INTEGER) :
    Codes (encodePairPayload first second) (decodePairPayload msg) (msg first second) :=
  (codes_varint safe).bind ((codes_varint safe').done rfl)

theorem codes_triple {msg : Nat → Nat → Nat → WireControlMessage} {first second third : Nat}
    (safe : first ≤ MAX_SAFE_INTEGER) (safe' : second ≤ MAX_SAFE_INTEGER)
    (safe'' : third ≤ MAX_SAFE_INTEGER) :
    Codes (encodeTriplePayload first second third) (decodeTriplePayload msg)
      (msg first second third) :=
  (codes_varint safe).bind ((codes_varint safe').bind ((codes_varint safe'').done rfl))

theorem codes_hello {documentId : String} {ticket : List UInt8} {lastServerSeq : Nat}
    {unacked : List Identifier} {clientCapabilities : Nat}
    (legal : ControlLegal direction
      (.hello documentId ticket lastServerSeq unacked clientCapabilities)) :
    Codes (encodeHelloPayload documentId ticket lastServerSeq unacked clientCapabilities)
      decodeHelloPayload (.hello documentId ticket lastServerSeq unacked clientCapabilities) := by
  obtain ⟨-, uuid, length, seq, count, stamps, capabilities⟩ := legal
  refine (codes_uuid uuid).bind ((codes_varint length).bind ((codes_bytes ticket).bind ?_))
  refine (codes_varint seq).bind ((codes_varint count).bind ?_)
  refine (Codes.each fun id member => codes_stamp (stamps id member)).bind ?_
  exact (codes_varint capabilities).done rfl

theorem codes_participant {p : ParticipantInfo} (replica : p.replicaId ≤ MAX_SAFE_INTEGER)
    (uuid : CanonicalUuid p.userId) (name : SafeText p.displayName) :
    Codes (encodeParticipant p) decodeParticipant p :=
  (codes_varint replica).bind ((codes_uuid uuid).bind ((codes_string name).done rfl))

theorem codes_welcome {sessionId : String} {replicaId serverSeq : Nat} {role : SessionRole}
    {syncMode : SyncMode} {participants : List ParticipantInfo}
    (legal : ControlLegal direction
      (.welcome sessionId replicaId role serverSeq syncMode participants)) :
    Codes (encodeWelcomePayload sessionId replicaId role serverSeq syncMode participants)
      decodeWelcomePayload (.welcome sessionId replicaId role serverSeq syncMode participants) := by
  obtain ⟨-, uuid, replica, seq, count, entries⟩ := legal
  refine (codes_uuid uuid).bind ((codes_varint replica).bind ((codes_sessionRole role).bind ?_))
  refine (codes_varint seq).bind ((codes_syncMode syncMode _ _).bind ((codes_varint count).bind ?_))
  refine (Codes.each fun p member => ?_).done rfl
  obtain ⟨replica, uuid, name⟩ := entries p member
  exact codes_participant replica uuid name

theorem codes_snapshot {seq : Nat} {form : SnapshotForm} {body : List UInt8}
    (legal : ControlLegal direction (.snapshot seq form body)) :
    Codes (encodeSnapshotPayload seq form body) decodeSnapshotPayload
      (.snapshot seq form body) := by
  obtain ⟨-, safe, length⟩ := legal
  refine (codes_varint safe).bind ((codes_snapshotForm form _ _).bind ?_)
  exact (codes_varint length).bind ((codes_bytes body).done rfl)

theorem codes_catchupChunk {throughSeq : Nat} {ops : List Operation}
    (legal : ControlLegal direction (.catchupChunk throughSeq ops)) :
    Codes (encodeCatchupChunkPayload throughSeq ops) decodeCatchupChunkPayload
      (.catchupChunk throughSeq ops) := by
  obtain ⟨-, seq, count, sendable⟩ := legal
  refine Codes.bind ((codes_varint seq).mapError _) (Codes.bind ((codes_varint count).mapError _) ?_)
  exact (Codes.each fun op member => codes_chunkEntry (sendable op member)).done rfl

theorem codes_alreadyHave {alreadyHave : List Identifier}
    (legal : ControlLegal direction (.alreadyHave alreadyHave)) :
    Codes (encodeAlreadyHavePayload alreadyHave) decodeAlreadyHavePayload
      (.alreadyHave alreadyHave) := by
  obtain ⟨-, count, stamps⟩ := legal
  exact (codes_varint count).bind
    ((Codes.each fun id member => codes_stamp (stamps id member)).done rfl)

theorem codes_optionalRole (role : Option SessionRole) :
    Codes (writeOptionalRole role) (readOptionalRole role.isSome) role := by
  cases role with
  | none => exact codes_pure none
  | some role => exact (codes_sessionRole role).done rfl

theorem codes_leave {lastAppliedSeq : Nat} (safe : lastAppliedSeq ≤ MAX_SAFE_INTEGER) :
    Codes (encodeLeavePayload lastAppliedSeq) decodeLeavePayload (.leave lastAppliedSeq) :=
  (codes_varint safe).done rfl

theorem codes_goodbye {reason : GoodbyeReason} {retryAfterMs : Nat}
    (safe : retryAfterMs ≤ MAX_SAFE_INTEGER) :
    Codes (encodeGoodbyePayload reason retryAfterMs) decodeGoodbyePayload
      (.goodbye reason retryAfterMs) :=
  (codes_goodbyeReason reason _ _).bind ((codes_varint safe).done rfl)

theorem codes_permissionChanged {role : Option SessionRole} {effectiveAtSeq : Nat}
    (legal : ControlLegal direction (.permissionChanged role effectiveAtSeq)) :
    Codes (encodePermissionChangedPayload role effectiveAtSeq) decodePermissionChangedPayload
      (.permissionChanged role effectiveAtSeq) := by
  obtain ⟨-, safe⟩ := legal
  refine (codes_byte (permissionChangedFlags_small role.isSome)).bind ?_
  simp only [permissionChangedFlags_known, pure_bind, permissionChangedFlags_role]
  exact (codes_optionalRole role).bind ((codes_varint safe).done rfl)

theorem codes_error {code : Nat} {fatal : Bool} {message : String}
    (legal : ControlLegal direction (.error code fatal message)) :
    Codes (encodeErrorPayload code fatal message) decodeErrorPayload
      (.error code fatal message) := by
  obtain ⟨-, small, text⟩ := legal
  rw [encodeErrorPayload, if_neg (Nat.not_lt.mpr small)]
  refine (codes_byte (by omega)).bind ((codes_byte (by cases fatal <;> decide)).bind ?_)
  refine (codes_string text).done ?_
  cases fatal <;> rfl

theorem codes_controlPayload {msg : WireControlMessage} (legal : ControlLegal direction msg) :
    Codes (encodeControlPayload msg) (decodeControlPayload (controlTypeOf msg)) msg := by
  cases msg with
  | hello => exact (codes_hello legal).mapError _
  | welcome => exact (codes_welcome legal).mapError _
  | snapshot => exact (codes_snapshot legal).mapError _
  | catchupBegin => exact (codes_triple legal.2.1 legal.2.2.1 legal.2.2.2).mapError _
  | catchupChunk => exact codes_catchupChunk legal
  | catchupEnd => exact (codes_pair legal.2.1 legal.2.2).mapError _
  | alreadyHave => exact (codes_alreadyHave legal).mapError _
  | syncComplete => exact (codes_pair legal.2.1 legal.2.2).mapError _
  | permissionChanged => exact (codes_permissionChanged legal).mapError _
  | error => exact (codes_error legal).mapError _
  | ping => exact (codes_pair legal.2.1 legal.2.2).mapError _
  | pong => exact (codes_triple legal.2.1 legal.2.2.1 legal.2.2.2).mapError _
  | leave => exact (codes_leave legal.2).mapError _
  | goodbye => exact (codes_goodbye legal.2).mapError _

theorem codes_presenceReplica {replicaId : Nat} (safe : replicaId ≤ MAX_SAFE_INTEGER) :
    Codes (writePresenceReplica direction replicaId) (readPresenceReplica direction)
      (if direction = .serverOrigin then replicaId else 0) := by
  unfold writePresenceReplica readPresenceReplica
  by_cases server : direction = .serverOrigin
  · rw [if_pos server, if_pos server, if_pos server]
    exact codes_varint safe
  · rw [if_neg server, if_neg server, if_neg server]
    exact codes_pure 0

theorem codes_presenceUpdate {replicaId : Nat} {anchor focus : Option Identifier}
    {collapsed : Bool}
    (legal : PresenceLegal direction (.presenceUpdate replicaId anchor focus collapsed)) :
    Codes (encodePresenceUpdatePayload direction replicaId anchor focus collapsed)
      (decodePresenceUpdatePayload direction)
      (received direction (.presenceUpdate replicaId anchor focus collapsed)) := by
  obtain ⟨safe, stamp, stamp'⟩ := legal
  refine (codes_presenceReplica safe).bind ?_
  refine (codes_byte (presenceFlags_small anchor.isSome focus.isSome collapsed)).bind ?_
  simp only [presenceFlags_known, pure_bind, presenceFlags_anchor, presenceFlags_focus,
    presenceFlags_collapsed]
  exact (codes_optionalStamp stamp).bind ((codes_optionalStamp stamp').done rfl)

theorem codes_rosterEntry {p : PresenceRosterEntry} (safe : SafeEntry p) :
    Codes (encodeRosterEntry p) decodeRosterEntry p := by
  obtain ⟨replica, uuid, name⟩ := safe
  refine (codes_varint replica).bind ((codes_uuid uuid).bind ((codes_string name).bind ?_))
  exact (codes_sessionRole p.role).done rfl

theorem codes_presencePayload {msg : PresenceMessage} (legal : PresenceLegal direction msg) :
    Codes (encodePresencePayload direction msg)
      (decodePresencePayload direction (presenceTypeOf msg)) (received direction msg) := by
  cases msg with
  | presenceUpdate => exact codes_presenceUpdate legal
  | presenceJoin entry => exact (codes_rosterEntry legal.2).done rfl
  | presenceLeave replicaId reason =>
      exact (codes_varint legal.2).bind ((codes_leaveReason reason _ _).done rfl)
  | presenceRoster participants =>
      obtain ⟨-, count, entries⟩ := legal
      exact (codes_varint count).bind
        ((Codes.each fun p member => codes_rosterEntry (entries p member)).done rfl)

end Payloads

/-! ### The frames -/

/-- A message has one of the types of its direction. -/
theorem controlType_mem {direction : Direction} {msg : WireControlMessage}
    (legal : ControlLegal direction msg) : controlTypeOf msg ∈
      if direction = .clientOrigin then CLIENT_ORIGIN_TYPES else SERVER_ORIGIN_TYPES := by
  cases msg <;> obtain rfl := legal.1 <;>
    simp [controlTypeOf, CLIENT_ORIGIN_TYPES, SERVER_ORIGIN_TYPES]

theorem controlType_valid {direction : Direction} {messageType : Nat}
    (member : messageType ∈
      if direction = .clientOrigin then CLIENT_ORIGIN_TYPES else SERVER_ORIGIN_TYPES) :
    messageType < 256 ∧ isImplementedControlType messageType = true ∧
      ¬ (direction = .clientOrigin ∧ messageType ∈ SERVER_ORIGIN_TYPES) ∧
      ¬ (direction = .serverOrigin ∧ messageType ∈ CLIENT_ORIGIN_TYPES) := by
  revert messageType
  cases direction <;> decide

theorem presenceType_mem {direction : Direction} {msg : PresenceMessage}
    (legal : PresenceLegal direction msg) : presenceTypeOf msg ∈
      if direction = .clientOrigin then [PRESENCE_UPDATE] else PRESENCE_UPDATE :: SERVER_ONLY_TYPES := by
  cases msg with
  | presenceUpdate => cases direction <;> simp [presenceTypeOf]
  | presenceJoin =>
      obtain rfl := legal.1
      simp [presenceTypeOf, SERVER_ONLY_TYPES]
  | presenceLeave =>
      obtain rfl := legal.1
      simp [presenceTypeOf, SERVER_ONLY_TYPES]
  | presenceRoster =>
      obtain rfl := legal.1
      simp [presenceTypeOf, SERVER_ONLY_TYPES]

theorem presenceType_valid {direction : Direction} {messageType : Nat}
    (member : messageType ∈ if direction = .clientOrigin then [PRESENCE_UPDATE]
      else PRESENCE_UPDATE :: SERVER_ONLY_TYPES) :
    messageType < 256 ∧
      ¬ (messageType ≠ PRESENCE_UPDATE ∧ messageType ≠ PRESENCE_JOIN ∧
        messageType ≠ PRESENCE_LEAVE ∧ messageType ≠ PRESENCE_ROSTER) ∧
      ¬ (direction = .clientOrigin ∧ messageType ∈ SERVER_ONLY_TYPES) := by
  revert messageType
  cases direction <;> decide

theorem decodeControlFrame_encodeControlFrame {direction : Direction} {msg : WireControlMessage}
    (legal : ControlLegal direction msg) :
    ∃ bytes, encodeControlFrame msg = .ok bytes ∧ decodeControlFrame bytes direction = .ok msg := by
  obtain ⟨small, implemented, client, server⟩ := controlType_valid (controlType_mem legal)
  have envelope : Codes (do
        writeByte PROTOCOL_VERSION
        writeByte CONTROL_CHANNEL
        writeByte (controlTypeOf msg)) (readControlEnvelope direction) (controlTypeOf msg) := by
    refine (codes_byte (by decide)).bind ?_
    rw [if_neg (by decide)]
    refine (codes_byte (by decide)).bind ?_
    rw [if_neg (by decide)]
    refine (codes_byte small).done ?_
    rw [if_neg (by rw [implemented]; decide), if_neg client, if_neg server]
  obtain ⟨bytes, writes, reads⟩ := (envelope.mapError _).bind (codes_controlPayload legal)
  refine ⟨bytes, ?_, ?_⟩
  · simp only [bind_assoc] at writes
    rw [encodeControlFrame, writes []]
    rfl
  · have all := reads []
    rw [List.append_nil] at all
    rw [decodeControlFrame, readControlFrame, primitive, all]
    rfl

theorem decodePresenceFrame_encodePresenceFrame {direction : Direction} {msg : PresenceMessage}
    (legal : PresenceLegal direction msg) :
    ∃ bytes, encodePresenceFrame msg direction = .ok bytes ∧
      decodePresenceFrame bytes direction = .ok (received direction msg) := by
  obtain ⟨small, known, client⟩ := presenceType_valid (presenceType_mem legal)
  have whole : Codes (do
        writeByte PROTOCOL_VERSION
        writeByte PRESENCE_CHANNEL
        writeByte (presenceTypeOf msg)
        encodePresencePayload direction msg) (readPresenceFrame direction)
      (received direction msg) := by
    refine (codes_byte (by decide)).bind ?_
    rw [if_neg (by decide)]
    refine (codes_byte (by decide)).bind ?_
    rw [if_neg (by decide)]
    refine (codes_byte small).bind ?_
    rw [if_neg known, if_neg client]
    exact codes_presencePayload legal
  obtain ⟨bytes, writes, reads⟩ := whole
  refine ⟨bytes, ?_, ?_⟩
  · rw [encodePresenceFrame, writes []]
    rfl
  · have all := reads []
    rw [List.append_nil] at all
    rw [decodePresenceFrame, all]
    rfl

end Codec

open Codec

/-- **Round trips on the other two channels.** A control message that a side can send is decoded from
its frame as it was, and so is a presence message, up to the replica id that a client leaves out. -/
theorem channels_round_trip (direction : Direction) :
    (∀ msg, ControlLegal direction msg → ∃ bytes, encodeControlFrame msg = .ok bytes ∧
      decodeControlFrame bytes direction = .ok msg) ∧
    ∀ msg, PresenceLegal direction msg → ∃ bytes, encodePresenceFrame msg direction = .ok bytes ∧
      decodePresenceFrame bytes direction = .ok (received direction msg) :=
  ⟨fun _ legal => decodeControlFrame_encodeControlFrame legal,
    fun _ legal => decodePresenceFrame_encodePresenceFrame legal⟩

/-- A first frame with a stamp that is not acknowledged. -/
def sampleHello : WireControlMessage :=
  .hello "0123abcd-4567-89ef-0000-ffffffffffff" [0x72, 0x74] (2 ^ 53 - 1) [⟨7, 3⟩] 6

theorem channels_round_trip_sample :
    (∃ bytes, encodeControlFrame sampleHello = .ok bytes ∧
      decodeControlFrame bytes .clientOrigin = .ok sampleHello) ∧
    ∃ bytes, encodePresenceFrame (.presenceUpdate 9 (some ⟨1, 2⟩) none true) .clientOrigin =
        .ok bytes ∧
      decodePresenceFrame bytes .clientOrigin =
        .ok (.presenceUpdate 0 (some ⟨1, 2⟩) none true) := by
  refine ⟨(channels_round_trip .clientOrigin).1 sampleHello ?_,
    (channels_round_trip .clientOrigin).2 (.presenceUpdate 9 (some ⟨1, 2⟩) none true) ?_⟩
  · refine ⟨rfl, by decide +kernel, by decide, by decide, by decide, ?_, by decide⟩
    exact List.forall_mem_singleton.mpr ⟨by decide, by decide⟩
  · refine ⟨by decide, fun id same => ?_, nofun⟩
    obtain rfl := Option.some.inj same
    exact ⟨by decide, by decide⟩

end ConfluenceEditor
