import RaftDB.JsonFields
import RaftDB.StorageRecordSize

/-!
# The JSON of the files

The three kinds of JSON text in a node's directory, each with the decoder of `encoding/json` for
its struct: the payload of a log record, the hard state and the snapshot. The decoder of records
has the two properties that the log file relies on.
-/
namespace Storage

open Raft JsonText JsonFields

/-! ## Records -/

def RawRecord.zero : RawRecord := ⟨"", 0, 0, [], 0⟩

def RawRecord.fields : List (StructField RawRecord) := [
  ⟨"type", fun r v => (string r.type v).map fun x => { r with type := x }⟩,
  ⟨"term", fun r v => (uint64 r.term v).map fun n => { r with term := n }⟩,
  ⟨"index", fun r v => (uint64 r.index v).map fun n => { r with index := n }⟩,
  ⟨"command", fun r v => (bytes v).map fun bs => { r with command := bs }⟩,
  ⟨"from", fun r v => (uint64 r.start v).map fun n => { r with start := n }⟩]

/-- `json.Unmarshal` into a `walRecord`. -/
def unmarshalRecord (bs : List UInt8) : Option RawRecord :=
  JsonFields.unmarshal RawRecord.fields .zero bs

def RawRecord.scalars (r : RawRecord) : List JsonText.Member :=
  ("type".toList, .string r.type.toList) ::
    (JsonFields.omitEmpty (r.term = 0) ("term".toList, .number r.term) ++
      JsonFields.omitEmpty (r.index = 0) ("index".toList, .number r.index) ++
      JsonFields.omitEmpty (r.command = []) ("command".toList, JsonFields.base64 r.command) ++
      JsonFields.omitEmpty (r.start = 0) ("from".toList, .number r.start))

/-! ## The bytes of an object -/

theorem encode_comma (ls : List (List Char)) :
    Utf8Text.encode ([','].intercalate ls) =
      [ByteEncodings.comma].intercalate (ls.map Utf8Text.encode) := by
  induction ls with
  | nil => rfl
  | cons l ls ih =>
    cases ls with
    | nil => simp
    | cons l' ls =>
      simp only [List.map_cons, List.intercalate_cons_cons, Utf8Text.encode_append] at ih ⊢
      rw [ih]
      rfl

def bytesOf (m : JsonText.Member) : ByteEncodings.Member :=
  (Utf8Text.encode (m.1.flatMap escape), Utf8Text.encode m.2.render)

theorem encode_quote (cs : List Char) :
    Utf8Text.encode (quote cs) = ByteEncodings.quoted (Utf8Text.encode (cs.flatMap escape)) := by
  rw [quote, Utf8Text.encode_cons, Utf8Text.encode_append]
  rfl

theorem encode_memberText (m : JsonText.Member) :
    Utf8Text.encode (memberText m) = ByteEncodings.member (bytesOf m) := by
  rw [memberText, Utf8Text.encode_append, Utf8Text.encode_cons, encode_quote]
  rfl

theorem marshal_object (ms : List JsonText.Member) :
    JsonFields.marshal ms = ByteEncodings.object (ms.map bytesOf) := by
  rw [JsonFields.marshal, objectText, Utf8Text.encode_cons, Utf8Text.encode_append, encode_comma,
    List.map_map, ByteEncodings.object, List.map_map]
  simp only [Function.comp_def, encode_memberText]
  rfl

theorem escape_base64 (bs : List UInt8) :
    (Utf8Text.text (ByteEncodings.base64 bs)).flatMap escape =
      Utf8Text.text (ByteEncodings.base64 bs) := by
  have hsym : ∀ v : Fin 64, escape (Char.ofNat (ByteEncodings.symbol v).toNat) =
      [Char.ofNat (ByteEncodings.symbol v).toNat] := by decide +kernel
  have hmem : ∀ c ∈ Utf8Text.text (ByteEncodings.base64 bs), escape c = [c] := by
    intro c hc
    obtain ⟨b, hb, rfl⟩ := List.mem_map.mp hc
    rcases ByteEncodings.mem_base64 hb with rfl | ⟨v, hv, rfl⟩
    · decide +kernel
    · exact hsym ⟨v, hv⟩
  rw [List.flatMap_congr hmem, List.flatMap_singleton']

theorem bytesOf_base64 (key : String) (bs : List UInt8)
    (hkey : Utf8Text.encode (key.toList.flatMap escape) = ByteEncodings.ascii key) :
    bytesOf (key.toList, JsonFields.base64 bs) =
      (ByteEncodings.ascii key, ByteEncodings.quoted (ByteEncodings.base64 bs)) := by
  rw [bytesOf, hkey]
  change (_, Utf8Text.encode (quote (Utf8Text.text (ByteEncodings.base64 bs)))) = _
  rw [encode_quote, escape_base64, Utf8Text.encode_text fun x hx => (base64_ascii hx).1]

theorem bytesOf_number (key : String) (n : ℕ)
    (hkey : Utf8Text.encode (key.toList.flatMap escape) = ByteEncodings.ascii key) :
    bytesOf (key.toList, .number n) = (ByteEncodings.ascii key, ByteEncodings.decimal n) := by
  rw [bytesOf, hkey]
  exact congrArg _ (encode_numberText n)

theorem map_omitEmpty {empty : Prop} [Decidable empty] {m : JsonText.Member} {key : String}
    {value : List UInt8} (h : bytesOf m = (ByteEncodings.ascii key, value)) :
    (JsonFields.omitEmpty empty m).map bytesOf = omitEmpty empty key value := by
  rw [JsonFields.omitEmpty, omitEmpty]
  split
  · rfl
  · rw [List.map_singleton, h]

/-- The bytes of a record are those that the log file has. -/
theorem marshal_scalars {r : RawRecord} (h : r.type = recordAppend ∨ r.type = recordTruncate) :
    JsonFields.marshal r.scalars = marshal r := by
  have htype : bytesOf ("type".toList, .string r.type.toList) =
      (ByteEncodings.ascii "type", ByteEncodings.quoted (ByteEncodings.ascii r.type)) := by
    rcases h with h | h <;> rw [h] <;> decide +kernel
  rw [marshal_object, marshal, RawRecord.scalars, RawRecord.members, List.map_cons, htype]
  simp only [List.map_append, map_omitEmpty (bytesOf_number "term" r.term (by decide +kernel)),
    map_omitEmpty (bytesOf_number "index" r.index (by decide +kernel)),
    map_omitEmpty (bytesOf_base64 "command" r.command (by decide +kernel)),
    map_omitEmpty (bytesOf_number "from" r.start (by decide +kernel))]

/-! ## Records are read back -/

section Stores

variable (r : RawRecord)

theorem store_type (text : String) :
    storeMember RawRecord.fields r ("type".toList, (Scalar.string text.toList).value) =
      some { r with type := text } := by
  simp [storeMember, findField, RawRecord.fields, string_text]

theorem store_term {n : ℕ} (h : n < 2 ^ 64) :
    storeMember RawRecord.fields r ("term".toList, (Scalar.number n).value) =
      some { r with term := n } := by
  simp [storeMember, findField, RawRecord.fields, uint64_number _ h]

theorem store_index {n : ℕ} (h : n < 2 ^ 64) :
    storeMember RawRecord.fields r ("index".toList, (Scalar.number n).value) =
      some { r with index := n } := by
  simp [storeMember, findField, RawRecord.fields, uint64_number _ h]

theorem store_command (bs : List UInt8) :
    storeMember RawRecord.fields r ("command".toList, (JsonFields.base64 bs).value) =
      some { r with command := bs } := by
  simp [storeMember, findField, RawRecord.fields, bytes_base64]

theorem store_from {n : ℕ} (h : n < 2 ^ 64) :
    storeMember RawRecord.fields r ("from".toList, (Scalar.number n).value) =
      some { r with start := n } := by
  simp [storeMember, findField, RawRecord.fields, uint64_number _ h]

end Stores

theorem unmarshal_scalars {r : RawRecord} (hterm : r.term < 2 ^ 64) (hindex : r.index < 2 ^ 64)
    (hstart : r.start < 2 ^ 64) :
    unmarshalRecord (JsonFields.marshal r.scalars) = some r := by
  have hfields : memberValues r.scalars =
      ("type".toList, (Scalar.string r.type.toList).value) ::
        (memberValues (JsonFields.omitEmpty (r.term = 0) ("term".toList, .number r.term)) ++
          (memberValues (JsonFields.omitEmpty (r.index = 0) ("index".toList, .number r.index)) ++
          (memberValues (JsonFields.omitEmpty (r.command = [])
            ("command".toList, JsonFields.base64 r.command)) ++
          memberValues (JsonFields.omitEmpty (r.start = 0) ("from".toList, .number r.start))))) := by
    simp [memberValues, RawRecord.scalars]
  have hafterTerm := foldlM_omitEmpty (r.term = 0) (store_term ⟨r.type, 0, 0, [], 0⟩ hterm)
    (fun h => by rw [h])
  have hafterIndex := foldlM_omitEmpty (r.index = 0)
    (store_index ⟨r.type, r.term, 0, [], 0⟩ hindex) (fun h => by rw [h])
  have hafterCommand := foldlM_omitEmpty (r.command = [])
    (store_command ⟨r.type, r.term, r.index, [], 0⟩ r.command) (fun h => by rw [h])
  have hafterFrom := foldlM_omitEmpty (r.start = 0)
    (store_from ⟨r.type, r.term, r.index, r.command, 0⟩ hstart) (fun h => by rw [h])
  rw [unmarshalRecord, unmarshal_marshal, hfields]
  simp only [List.foldlM_cons, List.foldlM_append, store_type, RawRecord.zero, bind, Option.bind_some,
    hafterTerm, hafterIndex, hafterCommand, hafterFrom]

theorem inverts_unmarshalRecord : Inverts unmarshalRecord := by
  intro r hr
  have htype := hr.written.type
  rw [← marshal_scalars htype]
  cases r with
  | append e => exact unmarshal_scalars hr.1 hr.2 (Nat.two_pow_pos 64)
  | truncate start => exact unmarshal_scalars (Nat.two_pow_pos 64) (Nat.two_pow_pos 64) hr
  | unknown type => exact hr.elim

theorem rejectsParts_unmarshalRecord : RejectsParts unmarshalRecord := by
  intro r hr k hk
  rw [← marshal_scalars hr.written.type] at hk ⊢
  exact unmarshal_take hk

/-! ## The hard state and the snapshot -/

def marshalHardState (hs : HardState) : List UInt8 :=
  JsonFields.marshal [("CurrentTerm".toList, .number hs.currentTerm),
    ("VotedFor".toList, .string hs.votedFor.toList)]

def hardStateFields : List (StructField HardState) := [
  ⟨"CurrentTerm", fun hs v => (uint64 hs.currentTerm v).map fun n => { hs with currentTerm := n }⟩,
  ⟨"VotedFor", fun hs v => (string hs.votedFor v).map fun x => { hs with votedFor := x }⟩]

def unmarshalHardState (bs : List UInt8) : Option HardState :=
  JsonFields.unmarshal hardStateFields ⟨0, None⟩ bs

def marshalSnapshot (snap : Snapshot (List UInt8)) : List UInt8 :=
  JsonFields.marshal [("last_included_index".toList, .number snap.lastIncludedIndex),
    ("last_included_term".toList, .number snap.lastIncludedTerm),
    ("data".toList, JsonFields.base64 snap.data)]

def snapshotFields : List (StructField (Snapshot (List UInt8))) := [
  ⟨"last_included_index", fun snap v =>
    (uint64 snap.lastIncludedIndex v).map fun n => { snap with lastIncludedIndex := n }⟩,
  ⟨"last_included_term", fun snap v =>
    (uint64 snap.lastIncludedTerm v).map fun n => { snap with lastIncludedTerm := n }⟩,
  ⟨"data", fun snap v => (bytes v).map fun bs => { snap with data := bs }⟩]

def unmarshalSnapshot (bs : List UInt8) : Option (Snapshot (List UInt8)) :=
  JsonFields.unmarshal snapshotFields ⟨0, 0, []⟩ bs

example : marshalHardState ⟨3, "n1"⟩ = ByteEncodings.ascii
    "\x7b\"CurrentTerm\":3,\"VotedFor\":\"n1\"\x7d" := by decide +kernel

theorem unmarshal_hardState {hs : HardState} (h : hs.currentTerm < 2 ^ 64) :
    unmarshalHardState (marshalHardState hs) = some hs := by
  rw [unmarshalHardState, marshalHardState, unmarshal_marshal]
  simp [memberValues, storeMember, findField, hardStateFields, uint64_number _ h, string_text]

theorem unmarshal_snapshot {snap : Snapshot (List UInt8)} (hindex : snap.lastIncludedIndex < 2 ^ 64)
    (hterm : snap.lastIncludedTerm < 2 ^ 64) :
    unmarshalSnapshot (marshalSnapshot snap) = some snap := by
  rw [unmarshalSnapshot, marshalSnapshot, unmarshal_marshal]
  simp [memberValues, storeMember, findField, snapshotFields, uint64_number _ hindex,
    uint64_number _ hterm, bytes_base64]

end Storage
