import RaftDB.JsonText

/-!
# JSON objects as structs

How a JSON text is taken in by a struct: a member goes to the field of its name, or of a name that
differs in case only, and has to fit its type; other members are ignored, and fields without a
member keep their zero value. A struct that is written as a flat object comes back, and nothing
comes back from a part of what was written.
-/
namespace JsonFields

open JsonText

/-! ## Values of Go types -/

/-- The types of the fields; `none` if the value does not fit, and a `null` changes no number and
no string. -/
def parseUint (bound : ℕ) (text : List Char) : Option ℕ :=
  let n := ByteEncodings.undecimal (Utf8Text.encode text)
  if text.all isDigit && n < bound then some n else none

def uint64 (old : ℕ) : Value → Option ℕ
  | .null => some old
  | .number text => parseUint (2 ^ 64) text
  | _ => none

def string (old : String) : Value → Option String
  | .null => some old
  | .string cs => some (String.ofList cs)
  | _ => none

def groups : List UInt8 → Option (List UInt8)
  | [] => some []
  | w :: x :: y :: z :: rest => do
    let bs ← ByteEncodings.group w x y z
    if z = ByteEncodings.padding then
      if rest = [] then some bs else none
    else
      let more ← groups rest
      some (bs ++ more)
  | _ => none

/-- Line breaks are skipped. -/
def decodeBase64 (bs : List UInt8) : Option (List UInt8) :=
  groups (bs.filter fun b => b ≠ 10 && b ≠ 13)

def uint8 : Value → Option UInt8
  | .null => some 0
  | .number text => (parseUint 256 text).map .ofNat
  | _ => none

def bytes : Value → Option (List UInt8)
  | .null => some []
  | .string cs => decodeBase64 (Utf8Text.encode cs)
  | .array vs => vs.mapM uint8
  | _ => none

/-! ## Structs -/

structure StructField (α : Type) where
  name : String
  store : α → Value → Option α

/-- Letters without their case; two letters beyond ASCII have an ASCII letter as their capital. -/
def foldChar (c : Char) : Char :=
  if 97 ≤ c.toNat ∧ c.toNat ≤ 122 then Char.ofNat (c.toNat - 32)
  else if c.toNat = 0x17F then 'S'
  else if c.toNat = 0x212A then 'K'
  else c

variable {α : Type}

def findField (fields : List (StructField α)) (key : List Char) : Option (StructField α) :=
  (fields.find? fun f => f.name.toList = key).or
    (fields.find? fun f => f.name.toList.map foldChar = key.map foldChar)

def storeMember (fields : List (StructField α)) (a : α) (m : List Char × Value) : Option α :=
  match findField fields m.1 with
  | some f => f.store a m.2
  | none => some a

def decodeStruct (fields : List (StructField α)) (zero : α) : Value → Option α
  | .null => some zero
  | .object ms => ms.foldlM (storeMember fields) zero
  | _ => none

def unmarshal (fields : List (StructField α)) (zero : α) (bs : List UInt8) : Option α :=
  (parse (Utf8Text.decode bs)).bind (decodeStruct fields zero)

def marshal (ms : List Member) : List UInt8 := Utf8Text.encode (objectText ms)

def omitEmpty (empty : Prop) [Decidable empty] (m : Member) : List Member :=
  if empty then [] else [m]

/-! ## What is written is read back -/

variable {fields : List (StructField α)} {zero a b : α} {ms : List Member}

theorem parse_marshal (ms : List Member) :
    parse (Utf8Text.decode (marshal ms)) = some (.object (memberValues ms)) := by
  rw [marshal, Utf8Text.decode_encode, parse_objectText]

theorem unmarshal_marshal :
    unmarshal fields zero (marshal ms) = (memberValues ms).foldlM (storeMember fields) zero := by
  rw [unmarshal, parse_marshal, Option.bind_some]
  rfl

theorem encode_numberText (n : ℕ) : Utf8Text.encode (numberText n) = ByteEncodings.decimal n := by
  refine Utf8Text.encode_text fun b hb => ?_
  have hhigh := (ByteEncodings.mem_decimal hb).2
  omega

theorem uint64_number {n : ℕ} (old : ℕ) (h : n < 2 ^ 64) :
    uint64 old (Scalar.number n).value = some n := by
  have hdigits : (numberText n).all isDigit = true :=
    List.all_eq_true.mpr fun c hc => isDigit_of_mem hc
  simp only [uint64, Scalar.value, parseUint, encode_numberText, ByteEncodings.undecimal_decimal,
    hdigits, h, decide_true, Bool.and_self, if_true]

theorem string_text (old text : String) : string old (Scalar.string text.toList).value = some text :=
  congrArg some String.ofList_toList

theorem base64_ascii {bs : List UInt8} {x : UInt8} (h : x ∈ ByteEncodings.base64 bs) :
    x.toNat < 128 ∧ x ≠ 10 ∧ x ≠ 13 := by
  have hsym : ∀ v : Fin 64, (ByteEncodings.symbol v).toNat < 128 ∧ ByteEncodings.symbol v ≠ 10 ∧
      ByteEncodings.symbol v ≠ 13 := by decide
  rcases ByteEncodings.mem_base64 h with rfl | ⟨v, hv, rfl⟩
  · decide
  · exact hsym ⟨v, hv⟩

theorem groups_base64 (bs : List UInt8) : groups (ByteEncodings.base64 bs) = some bs := by
  induction bs using ByteEncodings.base64.induct with
  | case1 => rfl
  | case2 a => simp [ByteEncodings.base64, groups, ByteEncodings.group_one]
  | case3 a b => simp [ByteEncodings.base64, groups, ByteEncodings.group_two]
  | case4 a b c rest ih =>
    have hne := ByteEncodings.symbol_ne_padding (v := c.toNat % 64) (by omega)
    simp [ByteEncodings.base64, groups, ByteEncodings.group_three, ih, hne]

theorem decodeBase64_base64 (bs : List UInt8) :
    decodeBase64 (ByteEncodings.base64 bs) = some bs := by
  rw [decodeBase64, List.filter_eq_self.mpr, groups_base64]
  intro x hx
  obtain ⟨-, hfeed, hreturn⟩ := base64_ascii hx
  simp [hfeed, hreturn]

def base64 (bs : List UInt8) : Scalar := .string (Utf8Text.text (ByteEncodings.base64 bs))

theorem bytes_base64 (bs : List UInt8) : bytes (base64 bs).value = some bs := by
  change decodeBase64 (Utf8Text.encode (Utf8Text.text (ByteEncodings.base64 bs))) = some bs
  rw [Utf8Text.encode_text fun x hx => (base64_ascii hx).1, decodeBase64_base64]

theorem foldlM_omitEmpty (empty : Prop) [Decidable empty] {key : List Char} {v : Scalar}
    (hstore : storeMember fields a (key, v.value) = some b) (hempty : empty → a = b) :
    (memberValues (omitEmpty empty (key, v))).foldlM (storeMember fields) a = some b := by
  rw [omitEmpty]
  split
  · rename_i h
    rw [hempty h]
    rfl
  · simp [memberValues, hstore]

/-! ## Parts of what was written -/

/-- A part of the bytes of an object is no JSON text. -/
theorem parse_take (ms : List Member) {k : ℕ} (hk : k < (marshal ms).length) :
    parse (Utf8Text.decode ((marshal ms).take k)) = none := by
  have hne : (marshal ms).take k ≠ marshal ms := by
    intro heq
    have hlen := congrArg List.length heq
    rw [List.length_take] at hlen
    omega
  obtain ⟨whole, rest, hdec, hpre, hhigh, hcut⟩ :=
    Utf8Text.decode_of_isPrefix (List.take_prefix k (marshal ms))
  rw [hdec]
  exact parse_objectText_cut hpre (hcut hne) hhigh

theorem unmarshal_take {k : ℕ} (hk : k < (marshal ms).length) :
    unmarshal fields zero ((marshal ms).take k) = none := by
  rw [unmarshal, parse_take ms hk]
  rfl

end JsonFields
