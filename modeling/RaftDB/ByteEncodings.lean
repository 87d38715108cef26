import Mathlib.Data.Nat.Digits.Defs
import Mathlib.Data.List.Basic

/-!
# Bytes of numbers and of bytes

Encodings that text and binary formats are made of: the four little-endian bytes of a word, the
decimal digits of a number, base64 with padding, JSON objects without blanks, and the CRC-32 of
the IEEE polynomial. Each decoder inverts its encoder, and the encoders use only the symbols of
their alphabet.
-/
namespace ByteEncodings

section LittleEndian

/-- The low 32 bits of the number, low byte first. -/
def putUint32 (n : ℕ) : List UInt8 :=
  [.ofNat n, .ofNat (n / 2 ^ 8), .ofNat (n / 2 ^ 16), .ofNat (n / 2 ^ 24)]

def getUint32 : List UInt8 → ℕ
  | [a, b, c, d] => a.toNat + b.toNat * 2 ^ 8 + c.toNat * 2 ^ 16 + d.toNat * 2 ^ 24
  | _ => 0

@[simp] theorem length_putUint32 (n : ℕ) : (putUint32 n).length = 4 := rfl

theorem getUint32_putUint32 (n : ℕ) : getUint32 (putUint32 n) = n % 2 ^ 32 := by
  simp only [putUint32, getUint32, UInt8.toNat_ofNat']
  omega

end LittleEndian

section Decimal

def digit (d : ℕ) : UInt8 := .ofNat (48 + d)

def decimal (n : ℕ) : List UInt8 :=
  if n = 0 then [digit 0] else ((Nat.digits 10 n).map digit).reverse

def undecimal (bs : List UInt8) : ℕ := bs.foldl (fun n b => 10 * n + (b.toNat - 48)) 0

theorem toNat_digit {d : ℕ} (h : d < 10) : (digit d).toNat = 48 + d := by
  rw [digit, UInt8.toNat_ofNat']
  omega

theorem undecimal_decimal (n : ℕ) : undecimal (decimal n) = n := by
  rw [decimal]
  split
  · rename_i h
    rw [h]
    rfl
  · have hfold : ∀ ds : List ℕ, (∀ d ∈ ds, d < 10) →
        undecimal (ds.map digit).reverse = Nat.ofDigits 10 ds := by
      intro ds
      induction ds with
      | nil =>
        intro _
        rfl
      | cons d ds ih =>
        intro hds
        have ih := ih fun x hx => hds x (List.mem_cons_of_mem d hx)
        rw [undecimal] at ih ⊢
        rw [List.map_cons, List.reverse_cons, List.foldl_append, ih, Nat.ofDigits_cons]
        simp only [List.foldl_cons, List.foldl_nil, toNat_digit (hds d List.mem_cons_self)]
        omega
    rw [hfold _ fun d hd => Nat.digits_lt_base (by decide) hd, Nat.ofDigits_digits]

theorem mem_decimal {n : ℕ} {b : UInt8} (h : b ∈ decimal n) : 48 ≤ b.toNat ∧ b.toNat ≤ 57 := by
  have hd : ∃ d < 10, b = digit d := by
    rw [decimal] at h
    split at h
    · exact ⟨0, by decide, List.mem_singleton.mp h⟩
    · rw [List.mem_reverse] at h
      obtain ⟨d, hd, rfl⟩ := List.mem_map.mp h
      exact ⟨d, Nat.digits_lt_base (by decide) hd, rfl⟩
  obtain ⟨d, hlt, rfl⟩ := hd
  rw [toNat_digit hlt]
  omega

end Decimal

section Base64

def symbol (v : ℕ) : UInt8 :=
  .ofNat (if v < 26 then 65 + v
    else if v < 52 then 97 + (v - 26)
    else if v < 62 then 48 + (v - 52)
    else if v = 62 then 43
    else 47)

def unsymbol (b : UInt8) : Option ℕ :=
  let c := b.toNat
  if 65 ≤ c ∧ c ≤ 90 then some (c - 65)
  else if 97 ≤ c ∧ c ≤ 122 then some (c - 97 + 26)
  else if 48 ≤ c ∧ c ≤ 57 then some (c - 48 + 52)
  else if c = 43 then some 62
  else if c = 47 then some 63
  else none

def padding : UInt8 := 61

/-- Three bytes make four symbols; the last group is padded. -/
def base64 : List UInt8 → List UInt8
  | [] => []
  | [a] => [symbol (a.toNat / 4), symbol (a.toNat % 4 * 16), padding, padding]
  | [a, b] => [symbol (a.toNat / 4), symbol (a.toNat % 4 * 16 + b.toNat / 16),
      symbol (b.toNat % 16 * 4), padding]
  | a :: b :: c :: rest =>
    symbol (a.toNat / 4) :: symbol (a.toNat % 4 * 16 + b.toNat / 16) ::
      symbol (b.toNat % 16 * 4 + c.toNat / 64) :: symbol (c.toNat % 64) :: base64 rest

def group (w x y z : UInt8) : Option (List UInt8) := do
  let w ← unsymbol w
  let x ← unsymbol x
  let a : UInt8 := .ofNat (w * 4 + x / 16)
  if y = padding then
    if z = padding then some [a] else none
  else
    let y ← unsymbol y
    let b : UInt8 := .ofNat (x * 16 + y / 4)
    if z = padding then some [a, b]
    else
      let z ← unsymbol z
      some [a, b, .ofNat (y * 64 + z)]

def unbase64 : List UInt8 → Option (List UInt8)
  | [] => some []
  | w :: x :: y :: z :: rest => do
    let bs ← group w x y z
    let more ← unbase64 rest
    some (bs ++ more)
  | _ => none

theorem unsymbol_symbol {v : ℕ} (h : v < 64) : unsymbol (symbol v) = some v := by
  have hall : ∀ v : Fin 64, unsymbol (symbol v) = some v.1 := by decide
  exact hall ⟨v, h⟩

theorem symbol_ne_padding {v : ℕ} (h : v < 64) : symbol v ≠ padding := by
  have hall : ∀ v : Fin 64, symbol v ≠ padding := by decide
  exact hall ⟨v, h⟩

theorem ofNat_eq {b : UInt8} {n : ℕ} (h : n % 256 = b.toNat) : UInt8.ofNat n = b := by
  apply UInt8.toNat_inj.mp
  rw [UInt8.toNat_ofNat']
  exact h

theorem group_one (a : UInt8) :
    group (symbol (a.toNat / 4)) (symbol (a.toNat % 4 * 16)) padding padding = some [a] := by
  have ha := a.toNat_lt
  have hbyte : UInt8.ofNat (a.toNat / 4 * 4 + a.toNat % 4 * 16 / 16) = a := ofNat_eq (by omega)
  simp only [group, unsymbol_symbol (v := a.toNat / 4) (by omega),
    unsymbol_symbol (v := a.toNat % 4 * 16) (by omega), bind, Option.bind_some, if_true, hbyte]

theorem group_two (a b : UInt8) :
    group (symbol (a.toNat / 4)) (symbol (a.toNat % 4 * 16 + b.toNat / 16))
      (symbol (b.toNat % 16 * 4)) padding = some [a, b] := by
  have ha := a.toNat_lt
  have hb := b.toNat_lt
  have hfirst : UInt8.ofNat (a.toNat / 4 * 4 + (a.toNat % 4 * 16 + b.toNat / 16) / 16) = a :=
    ofNat_eq (by omega)
  have hsecond : UInt8.ofNat ((a.toNat % 4 * 16 + b.toNat / 16) * 16 + b.toNat % 16 * 4 / 4) = b :=
    ofNat_eq (by omega)
  simp only [group, unsymbol_symbol (v := a.toNat / 4) (by omega),
    unsymbol_symbol (v := a.toNat % 4 * 16 + b.toNat / 16) (by omega),
    unsymbol_symbol (v := b.toNat % 16 * 4) (by omega), bind, Option.bind_some,
    if_neg (symbol_ne_padding (v := b.toNat % 16 * 4) (by omega)), if_true, hfirst, hsecond]

theorem group_three (a b c : UInt8) :
    group (symbol (a.toNat / 4)) (symbol (a.toNat % 4 * 16 + b.toNat / 16))
      (symbol (b.toNat % 16 * 4 + c.toNat / 64)) (symbol (c.toNat % 64)) = some [a, b, c] := by
  have ha := a.toNat_lt
  have hb := b.toNat_lt
  have hc := c.toNat_lt
  have hfirst : UInt8.ofNat (a.toNat / 4 * 4 + (a.toNat % 4 * 16 + b.toNat / 16) / 16) = a :=
    ofNat_eq (by omega)
  have hsecond : UInt8.ofNat ((a.toNat % 4 * 16 + b.toNat / 16) * 16 +
      (b.toNat % 16 * 4 + c.toNat / 64) / 4) = b := ofNat_eq (by omega)
  have hthird : UInt8.ofNat ((b.toNat % 16 * 4 + c.toNat / 64) * 64 + c.toNat % 64) = c :=
    ofNat_eq (by omega)
  simp only [group, unsymbol_symbol (v := a.toNat / 4) (by omega),
    unsymbol_symbol (v := a.toNat % 4 * 16 + b.toNat / 16) (by omega),
    unsymbol_symbol (v := b.toNat % 16 * 4 + c.toNat / 64) (by omega),
    unsymbol_symbol (v := c.toNat % 64) (by omega), bind, Option.bind_some,
    if_neg (symbol_ne_padding (v := b.toNat % 16 * 4 + c.toNat / 64) (by omega)),
    if_neg (symbol_ne_padding (v := c.toNat % 64) (by omega)), hfirst, hsecond, hthird]

theorem unbase64_base64 (bs : List UInt8) : unbase64 (base64 bs) = some bs := by
  induction bs using base64.induct with
  | case1 => rfl
  | case2 a => simp [base64, unbase64, group_one]
  | case3 a b => simp [base64, unbase64, group_two]
  | case4 a b c rest ih => simp [base64, unbase64, group_three, ih]

theorem mem_base64 {bs : List UInt8} {x : UInt8} (h : x ∈ base64 bs) :
    x = padding ∨ ∃ v < 64, x = symbol v := by
  have hsym : ∀ {v}, v < 64 → symbol v = padding ∨ ∃ w < 64, symbol v = symbol w :=
    fun hv => Or.inr ⟨_, hv, rfl⟩
  induction bs using base64.induct with
  | case1 => simp [base64] at h
  | case2 a =>
    have ha := a.toNat_lt
    simp only [base64, List.mem_cons, List.not_mem_nil, or_false] at h
    rcases h with rfl | rfl | rfl | rfl
    · exact hsym (by omega)
    · exact hsym (by omega)
    · exact Or.inl rfl
    · exact Or.inl rfl
  | case3 a b =>
    have ha := a.toNat_lt
    have hb := b.toNat_lt
    simp only [base64, List.mem_cons, List.not_mem_nil, or_false] at h
    rcases h with rfl | rfl | rfl | rfl
    · exact hsym (by omega)
    · exact hsym (by omega)
    · exact hsym (by omega)
    · exact Or.inl rfl
  | case4 a b c rest ih =>
    have ha := a.toNat_lt
    have hb := b.toNat_lt
    have hc := c.toNat_lt
    simp only [base64, List.mem_cons] at h
    rcases h with rfl | rfl | rfl | rfl | h
    · exact hsym (by omega)
    · exact hsym (by omega)
    · exact hsym (by omega)
    · exact hsym (by omega)
    · exact ih h

theorem length_base64 (bs : List UInt8) : (base64 bs).length = 4 * ((bs.length + 2) / 3) := by
  induction bs using base64.induct with
  | case1 | case2 | case3 => simp [base64]
  | case4 a b c rest ih =>
    simp only [base64, List.length_cons, ih]
    omega

end Base64

section Objects

def ascii (s : String) : List UInt8 := s.toList.map fun c => .ofNat c.toNat

def quote : UInt8 := 34
def comma : UInt8 := 44
def colon : UInt8 := 58
def openBrace : UInt8 := 123
def closeBrace : UInt8 := 125

def quoted (bs : List UInt8) : List UInt8 := quote :: (bs ++ [quote])

def unquoted (bs : List UInt8) : Option (List UInt8) :=
  if bs.head? = some quote ∧ bs.tail.getLast? = some quote then some bs.tail.dropLast else none

abbrev Member := List UInt8 × List UInt8

def member (m : Member) : List UInt8 := quoted m.1 ++ colon :: m.2

def unmember (bs : List UInt8) : Option Member :=
  let key := bs.tail.takeWhile (· ≠ quote)
  match bs.tail.dropWhile (· ≠ quote) with
  | _ :: _ :: value => if bs.head? = some quote then some (key, value) else none
  | _ => none

def object (ms : List Member) : List UInt8 :=
  openBrace :: ([comma].intercalate (ms.map member) ++ [closeBrace])

def unobject (bs : List UInt8) : Option (List Member) :=
  if bs.head? = some openBrace ∧ bs.getLast? = some closeBrace then
    (bs.tail.dropLast.splitOn comma).mapM unmember
  else none

/-- Neither the key nor the value contains a sign that the object uses. -/
structure Plain (m : Member) : Prop where
  key : ∀ b ∈ m.1, b ≠ quote ∧ b ≠ comma ∧ b ≠ closeBrace
  value : ∀ b ∈ m.2, b ≠ comma ∧ b ≠ closeBrace

theorem unquoted_quoted (bs : List UInt8) : unquoted (quoted bs) = some bs := by
  simp [unquoted, quoted]

theorem Plain.number {key : List UInt8} (n : ℕ)
    (hkey : ∀ b ∈ key, b ≠ quote ∧ b ≠ comma ∧ b ≠ closeBrace) : Plain (key, decimal n) := by
  refine ⟨hkey, fun b hb => ?_⟩
  obtain ⟨hlow, hhigh⟩ := mem_decimal hb
  constructor
  · rintro rfl
    exact absurd hlow (by decide)
  · rintro rfl
    exact absurd hhigh (by decide)

theorem Plain.bytes {key : List UInt8} (bs : List UInt8)
    (hkey : ∀ b ∈ key, b ≠ quote ∧ b ≠ comma ∧ b ≠ closeBrace) :
    Plain (key, quoted (base64 bs)) := by
  have hsym : ∀ v : Fin 64, symbol v ≠ comma ∧ symbol v ≠ closeBrace := by decide
  refine ⟨hkey, fun b hb => ?_⟩
  rcases List.mem_cons.mp hb with rfl | hb
  · decide
  rcases List.mem_append.mp hb with hb | hb
  · rcases mem_base64 hb with rfl | ⟨v, hv, rfl⟩
    · decide
    · exact hsym ⟨v, hv⟩
  · rw [List.mem_singleton.mp hb]
    decide

theorem unmember_member {m : Member} (h : Plain m) : unmember (member m) = some m := by
  have hne : ∀ b ∈ m.1, decide (b ≠ quote) = true :=
    fun b hb => decide_eq_true (h.key b hb).1
  have htail : (member m).tail = m.1 ++ quote :: colon :: m.2 := by
    simp [member, quoted]
  rw [unmember, htail, List.takeWhile_append_of_pos hne, List.dropWhile_append_of_pos hne]
  simp [member, quoted]

theorem mem_member {m : Member} {b : UInt8} (h : b ∈ member m) :
    b = quote ∨ b = colon ∨ b ∈ m.1 ∨ b ∈ m.2 := by
  simp only [member, quoted, List.mem_append, List.mem_cons, List.not_mem_nil, or_false] at h
  tauto

theorem mapM_unmember {ms : List Member} (h : ∀ m ∈ ms, Plain m) :
    (ms.map member).mapM unmember = some ms := by
  induction ms with
  | nil => rfl
  | cons m ms ih =>
    have ih := ih fun x hx => h x (List.mem_cons_of_mem m hx)
    simp [List.mapM_cons, unmember_member (h m List.mem_cons_self), ih]

theorem unobject_object {ms : List Member} (h : ∀ m ∈ ms, Plain m) (hne : ms ≠ []) :
    unobject (object ms) = some ms := by
  have hcomma : ∀ l ∈ ms.map member, comma ∉ l := by
    intro l hl hmem
    obtain ⟨m, hm, rfl⟩ := List.mem_map.mp hl
    rcases mem_member hmem with heq | heq | hk | hv
    · exact absurd heq (by decide)
    · exact absurd heq (by decide)
    · exact ((h m hm).key comma hk).2.1 rfl
    · exact ((h m hm).value comma hv).1 rfl
  have hsplit := List.splitOn_intercalate comma hcomma (by simpa using hne)
  have hlast : (object ms).getLast? = some closeBrace := by
    rw [object, ← List.cons_append, List.getLast?_concat]
  rw [unobject, if_pos ⟨rfl, hlast⟩, object, List.tail_cons, List.dropLast_concat, hsplit,
    mapM_unmember h]

theorem mem_intercalate {x sep : UInt8} {ls : List (List UInt8)}
    (h : x ∈ [sep].intercalate ls) : x = sep ∨ ∃ l ∈ ls, x ∈ l := by
  induction ls with
  | nil => simp at h
  | cons l ls ih =>
    cases ls with
    | nil =>
      rw [List.intercalate_singleton] at h
      exact Or.inr ⟨l, List.mem_cons_self, h⟩
    | cons l' ls =>
      rw [List.intercalate_cons_cons, List.append_assoc] at h
      rcases List.mem_append.mp h with hl | h
      · exact Or.inr ⟨l, List.mem_cons_self, hl⟩
      rcases List.mem_cons.mp h with rfl | h
      · exact Or.inl rfl
      rcases ih h with hsep | ⟨m, hm, hx⟩
      · exact Or.inl hsep
      · exact Or.inr ⟨m, List.mem_cons_of_mem l hm, hx⟩

theorem length_le_intercalate {sep : UInt8} {l : List UInt8} {ls : List (List UInt8)}
    (h : l ∈ ls) : l.length ≤ ([sep].intercalate ls).length := by
  induction ls with
  | nil => simp at h
  | cons l' ls ih =>
    cases ls with
    | nil =>
      rw [List.mem_singleton.mp h, List.intercalate_singleton]
    | cons l'' ls =>
      rw [List.intercalate_cons_cons, List.length_append, List.length_append]
      rcases List.mem_cons.mp h with rfl | h
      · omega
      · have := ih h
        omega

theorem length_lt_object {ms : List Member} {m : Member} (h : m ∈ ms) :
    m.2.length < (object ms).length := by
  have hle := @length_le_intercalate comma _ _ (List.mem_map_of_mem (f := member) h)
  simp only [member, quoted, List.length_append, List.length_cons] at hle
  simp only [object, List.length_cons, List.length_append]
  omega

/-- The closing brace is the last byte and no other, so no part of an object is one. -/
theorem unobject_take {ms : List Member} (h : ∀ m ∈ ms, Plain m) {k : ℕ}
    (hk : k < (object ms).length) : unobject ((object ms).take k) = none := by
  rw [unobject, if_neg]
  rintro ⟨_, hlast⟩
  have hmem := List.mem_of_getLast? hlast
  have hbody : object ms = (openBrace :: [comma].intercalate (ms.map member)) ++ [closeBrace] := rfl
  rw [hbody, List.length_append, List.length_singleton] at hk
  rw [hbody, List.take_append_of_le_length (by omega)] at hmem
  rcases List.mem_cons.mp (List.mem_of_mem_take hmem) with heq | hmem
  · exact absurd heq (by decide)
  rcases mem_intercalate hmem with heq | ⟨l, hl, hmem⟩
  · exact absurd heq (by decide)
  obtain ⟨m, hm, rfl⟩ := List.mem_map.mp hl
  rcases mem_member hmem with heq | heq | hkey | hvalue
  · exact absurd heq (by decide)
  · exact absurd heq (by decide)
  · exact ((h m hm).key _ hkey).2.2 rfl
  · exact ((h m hm).value _ hvalue).2 rfl

end Objects

section Crc

def crcBit (crc : UInt32) : UInt32 :=
  if crc &&& 1 = 1 then (crc >>> 1) ^^^ 0xEDB88320 else crc >>> 1

def crcByte (crc : UInt32) (b : UInt8) : UInt32 := (crcBit^[8]) (crc ^^^ b.toUInt32)

/-- The checksum with the IEEE polynomial, bits reflected. -/
def crc32 (bs : List UInt8) : ℕ := ((bs.foldl crcByte 0xFFFFFFFF) ^^^ 0xFFFFFFFF).toNat

theorem crc32_lt (bs : List UInt8) : crc32 bs < 2 ^ 32 := UInt32.toNat_lt _

/-- The check value of the standard: the digits from 1 to 9. -/
example : crc32 [49, 50, 51, 52, 53, 54, 55, 56, 57] = 0xCBF43926 := by decide +kernel

end Crc

end ByteEncodings
