import Mathlib.Data.Finset.Sort
import Mathlib.Data.String.Basic
import RaftDB.JsonFields
import RaftDB.KvStore

/-!
# Commands and snapshots as JSON

What `encoding/json` makes of a command and of the map of a store, and how it reads them. Every
command that is encoded and every map come back, whatever the texts in them, so that the
assumptions of the replicated store hold for the real encoding.
-/
namespace Kv

open JsonText JsonFields

def Op.name : Op → String
  | .put => "put"
  | .delete => "delete"
  | .unknown name => name

def Op.ofName (name : String) : Op :=
  if name = "put" then .put
  else if name = "delete" then .delete
  else .unknown name

def commandMembers (c : Command) : List Member :=
  [("op".toList, .string c.op.name.toList), ("key".toList, .string c.key.toList)] ++
    omitEmpty (c.value = "") ("value".toList, .string c.value.toList)

def commandFields : List (StructField Command) := [
  ⟨"op", fun c v => (string c.op.name v).map fun x => { c with op := .ofName x }⟩,
  ⟨"key", fun c v => (string c.key v).map fun x => { c with key := x }⟩,
  ⟨"value", fun c v => (string c.value v).map fun x => { c with value := x }⟩]

/-- The members of a map are written in the order of their keys. -/
def mapMembers (m : Map) : List Member :=
  (m.keys.sort (· ≤ ·)).map fun k => (k.toList, .string ((m.lookup k).getD "").toList)

def storeEntry (m : Map) (entry : List Char × Value) : Option Map :=
  (string "" entry.2).map fun value => m.insert (String.ofList entry.1) value

def decodeMap : Value → Option Map
  | .null => some ∅
  | .object ms => ms.foldlM storeEntry ∅
  | _ => none

/-- `encoding/json`; the text of an error is not modelled and given for the bytes that are
refused. -/
def goJson (reason : List UInt8 → String) : Json where
  marshalCommand := fun c => marshal (commandMembers c)
  unmarshalCommand := fun bs =>
    match unmarshal commandFields ⟨.ofName "", "", ""⟩ bs with
    | none => .error (reason bs)
    | some c => .ok c
  marshalMap := fun m => marshal (mapMembers m)
  unmarshalMap := fun bs =>
    match (parse (Utf8Text.decode bs)).bind decodeMap with
    | none => .error (reason bs)
    | some m => .ok m

def plainJson : Json := goJson fun _ => "invalid JSON"

variable {reason : List UInt8 → String} {cmd : Command} {data : List UInt8}

theorem ofName_name {op : Op} (h : ∀ name, op ≠ .unknown name) : Op.ofName op.name = op := by
  cases op with
  | put => rfl
  | delete => rfl
  | unknown name => exact absurd rfl (h name)

theorem unmarshal_command (h : ∀ name, cmd.op ≠ .unknown name) :
    unmarshal commandFields ⟨.ofName "", "", ""⟩ (marshal (commandMembers cmd)) = some cmd := by
  have hop : storeMember commandFields ⟨.ofName "", "", ""⟩
      ("op".toList, (Scalar.string cmd.op.name.toList).value) = some ⟨cmd.op, "", ""⟩ := by
    simp [storeMember, findField, commandFields, string_text, ofName_name h]
  have hkey : storeMember commandFields ⟨cmd.op, "", ""⟩
      ("key".toList, (Scalar.string cmd.key.toList).value) = some ⟨cmd.op, cmd.key, ""⟩ := by
    simp [storeMember, findField, commandFields, string_text]
  have hvalue : storeMember commandFields ⟨cmd.op, cmd.key, ""⟩
      ("value".toList, (Scalar.string cmd.value.toList).value) = some cmd := by
    simp [storeMember, findField, commandFields, string_text]
  have hlast := foldlM_omitEmpty (cmd.value = "") hvalue (fun hempty => by rw [← hempty])
  rw [unmarshal_marshal, commandMembers]
  have hsplit : memberValues ([("op".toList, .string cmd.op.name.toList),
      ("key".toList, .string cmd.key.toList)] ++
        omitEmpty (cmd.value = "") ("value".toList, .string cmd.value.toList)) =
      ("op".toList, (Scalar.string cmd.op.name.toList).value) ::
        ("key".toList, (Scalar.string cmd.key.toList).value) ::
        memberValues (omitEmpty (cmd.value = "") ("value".toList, .string cmd.value.toList)) := rfl
  rw [hsplit]
  simp only [List.foldlM_cons, hop, hkey, bind, Option.bind_some, hlast]

theorem goJson_roundTrips (h : ∀ name, cmd.op ≠ .unknown name) : (goJson reason).RoundTrips cmd := by
  simp only [Json.RoundTrips, goJson, unmarshal_command h]

/-! ## Maps -/

theorem foldlM_storeEntry (value : String → String) (ks : List String) (m : Map) :
    (memberValues (ks.map fun k => (k.toList, .string (value k).toList))).foldlM storeEntry m =
      some (ks.foldl (fun m k => m.insert k (value k)) m) := by
  induction ks generalizing m with
  | nil => rfl
  | cons k ks ih =>
    have hstore : storeEntry m (k.toList, (Scalar.string (value k).toList).value) =
        some (m.insert k (value k)) := by
      simp [storeEntry, string_text]
    have hsplit : memberValues ((k :: ks).map fun k => (k.toList, .string (value k).toList)) =
        (k.toList, (Scalar.string (value k).toList).value) ::
          memberValues (ks.map fun k => (k.toList, .string (value k).toList)) := rfl
    rw [hsplit, List.foldlM_cons, hstore]
    exact ih _

theorem lookup_foldl_insert (value : String → String) (ks : List String) (m : Map) (k : String) :
    (ks.foldl (fun m k => m.insert k (value k)) m).lookup k =
      if k ∈ ks then some (value k) else m.lookup k := by
  induction ks generalizing m with
  | nil => simp
  | cons k' ks ih =>
    rw [List.foldl_cons, ih]
    by_cases hmem : k ∈ ks
    · simp [hmem]
    · by_cases hk : k = k'
      · subst hk
        simp [hmem, Finmap.lookup_insert]
      · simp [hmem, hk, Finmap.lookup_insert_of_ne _ hk]

theorem insert_all (m : Map) :
    (m.keys.sort (· ≤ ·)).foldl (fun acc k => acc.insert k ((m.lookup k).getD "")) ∅ = m := by
  apply Finmap.ext_lookup
  intro k
  rw [lookup_foldl_insert]
  cases hk : m.lookup k with
  | none =>
    have hmem : k ∉ m.keys.sort (· ≤ ·) := by
      rw [Finset.mem_sort, Finmap.mem_keys, ← Finmap.lookup_eq_none]
      exact hk
    rw [if_neg hmem]
    rfl
  | some value =>
    have hmem : k ∈ m.keys.sort (· ≤ ·) := by
      rw [Finset.mem_sort, Finmap.mem_keys]
      exact Finmap.mem_of_lookup_eq_some hk
    rw [if_pos hmem]
    rfl

theorem goJson_roundTripsMap (m : Map) : (goJson reason).RoundTripsMap m := by
  have hfold := foldlM_storeEntry (fun k => (m.lookup k).getD "") (m.keys.sort (· ≤ ·)) ∅
  rw [insert_all] at hfold
  simp only [Json.RoundTripsMap, goJson, parse_marshal, Option.bind_some, decodeMap, mapMembers, hfold]

/-! ## What the store sees -/

theorem encode_cases (json : Json) (h : cmd.encode json = .ok data) :
    (∀ name, cmd.op ≠ .unknown name) ∧ data = json.marshalCommand cmd := by
  rw [Command.encode] at h
  split at h
  · cases h
  · rename_i hop
    cases h
    exact ⟨hop, rfl⟩

/-- A command that was encoded is decoded to itself, and every proper prefix of it is refused. -/
theorem command_reads_back (reason : List UInt8 → String) {cmd : Command} {data : List UInt8}
    (h : cmd.encode (goJson reason) = .ok data) :
    decodeCommand (goJson reason) data = .ok cmd ∧
      ∀ k < data.length, decodeCommand (goJson reason) (data.take k) =
        .error (.corruptCommand (reason (data.take k))) := by
  obtain ⟨hop, rfl⟩ := encode_cases (goJson reason) h
  refine ⟨decode_of_encoded h (goJson_roundTrips hop), fun k hk => ?_⟩
  have hpart : unmarshal commandFields ⟨.ofName "", "", ""⟩ ((marshal (commandMembers cmd)).take k) =
      none := unmarshal_take hk
  simp only [decodeCommand, goJson, hpart]

theorem command_reads_back_escaped :
    (Command.mk .put "a\"b" "<é\n>").encode (goJson fun _ => "") = .ok ("\x7b\"op\":\"put\",".toUTF8.toList
      ++ "\"key\":\"a\\\"b\",\"value\":\"\\u003cé\\n\\u003e\"\x7d".toUTF8.toList) ∧
    decodeCommand (goJson fun _ => "") ("\x7b\"op\":\"put\",".toUTF8.toList
      ++ "\"key\":\"a\\\"b\",\"value\":\"\\u003cé\\n\\u003e\"\x7d".toUTF8.toList) =
        .ok ⟨.put, "a\"b", "<é\n>"⟩ := by
  have hencode : (Command.mk .put "a\"b" "<é\n>").encode (goJson fun _ => "") =
      .ok ("\x7b\"op\":\"put\",".toUTF8.toList
        ++ "\"key\":\"a\\\"b\",\"value\":\"\\u003cé\\n\\u003e\"\x7d".toUTF8.toList) := by
    decide +kernel
  exact ⟨hencode, (command_reads_back (fun _ => "") hencode).1⟩

/-- A store is restored from its snapshot, and from no proper prefix of it. -/
theorem snapshot_restores (reason : List UInt8 → String) (s : Store) :
    Store.restoreBytes (goJson reason) (s.snapshotBytes (goJson reason)) = .ok s ∧
      ∀ k < (s.snapshotBytes (goJson reason)).length,
        Store.restoreBytes (goJson reason) ((s.snapshotBytes (goJson reason)).take k) =
          .error (.corruptSnapshot (reason ((s.snapshotBytes (goJson reason)).take k))) := by
  refine ⟨restore_of_snapshot (goJson_roundTripsMap s.m), fun k hk => ?_⟩
  have hpart : parse (Utf8Text.decode ((marshal (mapMembers s.m)).take k)) = none := parse_take _ hk
  simp only [Store.restoreBytes, Store.snapshotBytes, goJson, hpart, Option.bind_none]

end Kv
