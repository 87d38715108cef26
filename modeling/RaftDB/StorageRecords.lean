import RaftDB.ByteEncodings
import RaftDB.StorageWal

/-!
# Records as JSON

The payload of a record in the log file: a JSON object that leaves out the fields with a zero
value. There is a decoder that inverts it, and no decoder of JSON objects can take a part of a
payload for a whole one.
-/
namespace Storage

open Raft ByteEncodings

structure RawRecord where
  type : String
  term : ℕ
  index : ℕ
  command : List UInt8
  start : ℕ
  deriving DecidableEq, Repr

def recordAppend : String := "append"

def recordTruncate : String := "truncate"

/-- How a record is written. The store writes no record of an unknown type. -/
def WalRecord.raw : WalRecord → RawRecord
  | .append e => ⟨recordAppend, e.term, e.index, e.command, 0⟩
  | .truncate start => ⟨recordTruncate, 0, 0, [], start⟩
  | .unknown type => ⟨type, 0, 0, [], 0⟩

def RawRecord.record (r : RawRecord) : WalRecord :=
  if r.type = recordAppend then .append ⟨r.term, r.index, r.command⟩
  else if r.type = recordTruncate then .truncate r.start
  else .unknown r.type

def omitEmpty (empty : Prop) [Decidable empty] (key : String) (value : List UInt8) :
    List Member :=
  if empty then [] else [(ascii key, value)]

def RawRecord.members (r : RawRecord) : List Member :=
  (ascii "type", quoted (ascii r.type)) ::
    (omitEmpty (r.term = 0) "term" (decimal r.term) ++
      omitEmpty (r.index = 0) "index" (decimal r.index) ++
      omitEmpty (r.command = []) "command" (quoted (base64 r.command)) ++
      omitEmpty (r.start = 0) "from" (decimal r.start))

/-- `json.Marshal`. The two types that are written need no escapes. -/
def marshal (r : RawRecord) : List UInt8 := object r.members

example : marshal (WalRecord.append ⟨1, 2, [97, 97]⟩).raw = ascii
    "\x7b\"type\":\"append\",\"term\":1,\"index\":2,\"command\":\"YWE=\"\x7d" := by decide +kernel

section Decoding

def RawRecord.ofMembers (ms : List Member) : Option RawRecord := do
  let type ← (ms.lookup (ascii "type")).bind unquoted
  let command ← ((ms.lookup (ascii "command")).getD (quoted [])
    |> unquoted).bind unbase64
  some {
    type := String.ofList (type.map fun b => Char.ofNat b.toNat)
    term := ((ms.lookup (ascii "term")).map undecimal).getD 0
    index := ((ms.lookup (ascii "index")).map undecimal).getD 0
    command := command
    start := ((ms.lookup (ascii "from")).map undecimal).getD 0 }

def unmarshalMembers (bs : List UInt8) : Option RawRecord :=
  (unobject bs).bind RawRecord.ofMembers

variable {empty : Prop} [Decidable empty] {key : String} {value : List UInt8}

theorem lookup_omitEmpty :
    (omitEmpty empty key value).lookup (ascii key) = if empty then none else some value := by
  rw [omitEmpty]
  split <;> simp

theorem lookup_omitEmpty_of_ne {k : List UInt8} (h : (k == ascii key) = false) :
    (omitEmpty empty key value).lookup k = none := by
  rw [omitEmpty]
  split <;> simp [List.lookup_cons, h]

theorem plain_omitEmpty (h : Plain (ascii key, value)) :
    ∀ m ∈ omitEmpty empty key value, Plain m := by
  rw [omitEmpty]
  split <;> simp [h]

def WalRecord.Written : WalRecord → Prop
  | .unknown _ => False
  | _ => True

theorem RawRecord.members_plain {r : RawRecord}
    (h : r.type = recordAppend ∨ r.type = recordTruncate) : ∀ m ∈ r.members, Plain m := by
  have htype : Plain (ascii "type", quoted (ascii r.type)) := by
    rcases h with h | h <;> rw [h] <;> constructor <;> decide +kernel
  intro m hm
  rw [members] at hm
  rcases List.mem_cons.mp hm with rfl | hm
  · exact htype
  simp only [List.mem_append] at hm
  rcases hm with ((hm | hm) | hm) | hm
  · exact plain_omitEmpty (.number _ (by decide +kernel)) m hm
  · exact plain_omitEmpty (.number _ (by decide +kernel)) m hm
  · exact plain_omitEmpty (.bytes _ (by decide +kernel)) m hm
  · exact plain_omitEmpty (.number _ (by decide +kernel)) m hm

theorem number_of_omitEmpty (n : ℕ) :
    ((if n = 0 then none else some (decimal n)).map undecimal).getD 0 = n := by
  split
  · rename_i h
    exact h.symm
  · exact undecimal_decimal n

theorem RawRecord.lookup_members (r : RawRecord) {k : List UInt8}
    (h : (k == ascii "type") = false) :
    r.members.lookup k =
      ((((omitEmpty (r.term = 0) "term" (decimal r.term)).lookup k).or
        ((omitEmpty (r.index = 0) "index" (decimal r.index)).lookup k)).or
        ((omitEmpty (r.command = []) "command" (quoted (base64 r.command))).lookup k)).or
        ((omitEmpty (r.start = 0) "from" (decimal r.start)).lookup k) := by
  rw [members, List.lookup_cons, h]
  simp only [List.lookup_append]

theorem RawRecord.ofMembers_members {r : RawRecord}
    (h : r.type = recordAppend ∨ r.type = recordTruncate) : ofMembers r.members = some r := by
  have htype : r.members.lookup (ascii "type") = some (quoted (ascii r.type)) :=
    List.lookup_cons_self
  have htext : String.ofList ((ascii r.type).map fun b => Char.ofNat b.toNat) = r.type := by
    rcases h with h | h <;> rw [h] <;> rfl
  have hterm : r.members.lookup (ascii "term") =
      if r.term = 0 then none else some (decimal r.term) := by
    rw [r.lookup_members rfl, lookup_omitEmpty, lookup_omitEmpty_of_ne rfl,
      lookup_omitEmpty_of_ne rfl, lookup_omitEmpty_of_ne rfl]
    simp only [Option.or_none]
  have hindex : r.members.lookup (ascii "index") =
      if r.index = 0 then none else some (decimal r.index) := by
    rw [r.lookup_members rfl, lookup_omitEmpty_of_ne rfl, lookup_omitEmpty,
      lookup_omitEmpty_of_ne rfl, lookup_omitEmpty_of_ne rfl]
    simp only [Option.or_none, Option.none_or]
  have hcommand : r.members.lookup (ascii "command") =
      if r.command = [] then none else some (quoted (base64 r.command)) := by
    rw [r.lookup_members rfl, lookup_omitEmpty_of_ne rfl, lookup_omitEmpty_of_ne rfl,
      lookup_omitEmpty, lookup_omitEmpty_of_ne rfl]
    simp only [Option.or_none, Option.none_or]
  have hstart : r.members.lookup (ascii "from") =
      if r.start = 0 then none else some (decimal r.start) := by
    rw [r.lookup_members rfl, lookup_omitEmpty_of_ne rfl, lookup_omitEmpty_of_ne rfl,
      lookup_omitEmpty_of_ne rfl, lookup_omitEmpty]
    simp only [Option.none_or]
  have hbytes : (unquoted ((r.members.lookup (ascii "command")).getD (quoted []))).bind unbase64 =
      some r.command := by
    rw [hcommand]
    split
    · rename_i hempty
      rw [hempty, Option.getD_none, unquoted_quoted]
      rfl
    · rw [Option.getD_some, unquoted_quoted, Option.bind_some, unbase64_base64]
  simp only [ofMembers, htype, hbytes, hterm, hindex, hstart, number_of_omitEmpty,
    Option.bind_some, unquoted_quoted, bind, htext]

theorem WalRecord.Written.type {r : WalRecord} (h : r.Written) :
    r.raw.type = recordAppend ∨ r.raw.type = recordTruncate := by
  cases r with
  | append e => exact Or.inl rfl
  | truncate start => exact Or.inr rfl
  | unknown type => exact h.elim

theorem WalRecord.Written.record {r : WalRecord} (h : r.Written) : r.raw.record = r := by
  cases r with
  | append e => rfl
  | truncate start => rfl
  | unknown type => exact h.elim

theorem unmarshalMembers_marshal {r : WalRecord} (h : r.Written) :
    unmarshalMembers (marshal r.raw) = some r.raw := by
  rw [unmarshalMembers, marshal, unobject_object (RawRecord.members_plain h.type) (by
    simp [RawRecord.members]), Option.bind_some, RawRecord.ofMembers_members h.type]

theorem unmarshalMembers_take {r : WalRecord} (h : r.Written) {k : ℕ}
    (hk : k < (marshal r.raw).length) : unmarshalMembers ((marshal r.raw).take k) = none := by
  rw [unmarshalMembers, marshal, unobject_take (RawRecord.members_plain h.type) hk]
  rfl

end Decoding

section Sizes

theorem marshal_pos (r : RawRecord) : 0 < (marshal r).length := by
  simp [marshal, object]

/-- Base64 takes four bytes for three. -/
theorem length_marshal_append {e : LogEntry} (h : e.command ≠ []) :
    4 * ((e.command.length + 2) / 3) < (marshal (WalRecord.append e).raw).length := by
  have hmem : (ascii "command", quoted (base64 e.command)) ∈ (WalRecord.append e).raw.members := by
    simp [RawRecord.members, WalRecord.raw, omitEmpty, h]
  have hlt := length_lt_object hmem
  simp only [quoted, List.length_cons, List.length_append, length_base64] at hlt
  rw [marshal]
  omega

end Sizes

end Storage
