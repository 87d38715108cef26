import Mathlib.Data.Nat.Digits.Lemmas
import RaftDB.ByteEncodings
import RaftDB.Utf8Text

/-!
# JSON texts

A scanner that reads a JSON text one character at a time and builds its value, with a stack of
the arrays and objects that are still open, and the writer of flat objects. What is written is
read back, and no text of an object can be cut off so that the rest is still a text.
-/
namespace JsonText

inductive Value where
  | null
  | bool (b : Bool)
  | number (text : List Char)
  | string (text : List Char)
  | array (vs : List Value)
  | object (ms : List (List Char × Value))

/-! ## Strings -/

/-- A character of a string, or the number behind `\u`. -/
inductive Piece where
  | char (c : Char)
  | code (n : ℕ)
  deriving DecidableEq, Repr

def isHigh (n : ℕ) : Bool := 0xD800 ≤ n && n < 0xDC00

def isLow (n : ℕ) : Bool := 0xDC00 ≤ n && n < 0xE000

def scalar (n : ℕ) : Char := if isHigh n || isLow n then Utf8Text.replacement else Char.ofNat n

def pair (n m : ℕ) : Char := Char.ofNat (0x10000 + (n - 0xD800) * 0x400 + (m - 0xDC00))

/-- The text of a string; half a pair becomes the replacement character. -/
def join : List Piece → List Char
  | [] => []
  | .char c :: ps => c :: join ps
  | .code n :: .code m :: ps =>
    if isHigh n && isLow m then pair n m :: join ps else scalar n :: join (.code m :: ps)
  | .code n :: ps => scalar n :: join ps

def hexDigit (n : ℕ) : Char := if n < 10 then Char.ofNat (48 + n) else Char.ofNat (87 + n)

def hexValue (c : Char) : Option ℕ :=
  let n := c.toNat
  if 48 ≤ n ∧ n ≤ 57 then some (n - 48)
  else if 97 ≤ n ∧ n ≤ 102 then some (n - 87)
  else if 65 ≤ n ∧ n ≤ 70 then some (n - 55)
  else none

def unescape : Char → Option Char
  | '"' => some '"'
  | '\\' => some '\\'
  | '/' => some '/'
  | 'b' => some '\x08'
  | 'f' => some '\x0c'
  | 'n' => some '\n'
  | 'r' => some '\r'
  | 't' => some '\t'
  | _ => none

/-! ## The scanner -/

inductive Frame where
  /-- An object, before the colon of a member with the key that was read. -/
  | objectKey (ms : List (List Char × Value)) (key : List Char)
  | objectValue (ms : List (List Char × Value)) (key : List Char)
  | arrayValue (vs : List Value)

inductive Esc where
  | plain
  | backslash
  /-- That many digits are missing. -/
  | hex (missing value : ℕ)
  deriving DecidableEq, Repr

inductive Num where
  | neg
  | zero
  | digits
  | dot
  | fraction
  | exp
  | expSign
  | expDigits
  deriving DecidableEq, Repr

inductive Mode where
  | beginValue
  | beginValueOrEmpty
  | beginString
  | beginStringOrEmpty
  | inString (ps : List Piece) (esc : Esc)
  | inNumber (text : List Char) (part : Num)
  | inLiteral (rest : List Char) (v : Value)
  | endValue
  | endTop (v : Value)

structure State where
  stack : List Frame
  mode : Mode

def isSpace (c : Char) : Bool := c = ' ' || c = '\t' || c = '\r' || c = '\n'

def isDigit (c : Char) : Bool := 48 ≤ c.toNat && c.toNat ≤ 57

def Num.next : Num → Char → Option Num
  | .neg, c => if c = '0' then some .zero else if isDigit c then some .digits else none
  | .zero, c => if c = '.' then some .dot else if c = 'e' ∨ c = 'E' then some .exp else none
  | .digits, c =>
    if isDigit c then some .digits
    else if c = '.' then some .dot
    else if c = 'e' ∨ c = 'E' then some .exp
    else none
  | .dot, c => if isDigit c then some .fraction else none
  | .fraction, c =>
    if isDigit c then some .fraction else if c = 'e' ∨ c = 'E' then some .exp else none
  | .exp, c =>
    if c = '+' ∨ c = '-' then some .expSign else if isDigit c then some .expDigits else none
  | .expSign, c => if isDigit c then some .expDigits else none
  | .expDigits, c => if isDigit c then some .expDigits else none

def Num.complete : Num → Bool
  | .zero | .digits | .fraction | .expDigits => true
  | _ => false

def maxNestingDepth : ℕ := 10000

def push (st : List Frame) (f : Frame) (mode : Mode) : Option State :=
  if st.length < maxNestingDepth then some ⟨f :: st, mode⟩ else none

def deliver (v : Value) : List Frame → State
  | [] => ⟨[], .endTop v⟩
  | .objectKey ms key :: st =>
    match v with
    | .string k => ⟨.objectKey ms k :: st, .endValue⟩
    | _ => ⟨.objectKey ms key :: st, .endValue⟩
  | .objectValue ms key :: st => ⟨.objectValue (ms ++ [(key, v)]) key :: st, .endValue⟩
  | .arrayValue vs :: st => ⟨.arrayValue (vs ++ [v]) :: st, .endValue⟩

def beginValue (st : List Frame) (c : Char) : Option State :=
  if isSpace c then some ⟨st, .beginValue⟩
  else if c = '{' then push st (.objectKey [] []) .beginStringOrEmpty
  else if c = '[' then push st (.arrayValue []) .beginValueOrEmpty
  else if c = '"' then some ⟨st, .inString [] .plain⟩
  else if c = '-' then some ⟨st, .inNumber [c] .neg⟩
  else if c = '0' then some ⟨st, .inNumber [c] .zero⟩
  else if isDigit c then some ⟨st, .inNumber [c] .digits⟩
  else if c = 't' then some ⟨st, .inLiteral ['r', 'u', 'e'] (.bool true)⟩
  else if c = 'f' then some ⟨st, .inLiteral ['a', 'l', 's', 'e'] (.bool false)⟩
  else if c = 'n' then some ⟨st, .inLiteral ['u', 'l', 'l'] .null⟩
  else none

def beginString (st : List Frame) (c : Char) : Option State :=
  if isSpace c then some ⟨st, .beginString⟩
  else if c = '"' then some ⟨st, .inString [] .plain⟩
  else none

def endValue : List Frame → Char → Option State
  | [], _ => none
  | f :: st, c =>
    if isSpace c then some ⟨f :: st, .endValue⟩
    else
      match f with
      | .objectKey ms key => if c = ':' then some ⟨.objectValue ms key :: st, .beginValue⟩ else none
      | .objectValue ms _ =>
        if c = ',' then some ⟨.objectKey ms [] :: st, .beginString⟩
        else if c = '}' then some (deliver (.object ms) st)
        else none
      | .arrayValue vs =>
        if c = ',' then some ⟨.arrayValue vs :: st, .beginValue⟩
        else if c = ']' then some (deliver (.array vs) st)
        else none

def afterValue (s : State) (c : Char) : Option State :=
  match s.mode with
  | .endTop v => if isSpace c then some ⟨s.stack, .endTop v⟩ else none
  | _ => endValue s.stack c

def inString (st : List Frame) (ps : List Piece) (c : Char) : Esc → Option State
  | .plain =>
    if c = '"' then some (deliver (.string (join ps)) st)
    else if c = '\\' then some ⟨st, .inString ps .backslash⟩
    else if c.toNat < 0x20 then none
    else some ⟨st, .inString (ps ++ [.char c]) .plain⟩
  | .backslash =>
    if c = 'u' then some ⟨st, .inString ps (.hex 4 0)⟩
    else (unescape c).map fun d => ⟨st, .inString (ps ++ [.char d]) .plain⟩
  | .hex missing value =>
    (hexValue c).map fun d =>
      if missing ≤ 1 then ⟨st, .inString (ps ++ [.code (16 * value + d)]) .plain⟩
      else ⟨st, .inString ps (.hex (missing - 1) (16 * value + d))⟩

def inNumber (st : List Frame) (text : List Char) (part : Num) (c : Char) : Option State :=
  match part.next c with
  | some part' => some ⟨st, .inNumber (text ++ [c]) part'⟩
  | none => if part.complete then afterValue (deliver (.number text) st) c else none

def inLiteral (st : List Frame) (v : Value) (c : Char) : List Char → Option State
  | [] => none
  | d :: rest =>
    if c = d then
      match rest with
      | [] => some (deliver v st)
      | _ => some ⟨st, .inLiteral rest v⟩
    else none

/-- One character; `none` is a syntax error. -/
def step (s : State) (c : Char) : Option State :=
  match s.mode with
  | .beginValue => beginValue s.stack c
  | .beginValueOrEmpty =>
    if isSpace c then some s
    else if c = ']' then endValue s.stack c
    else beginValue s.stack c
  | .beginString => beginString s.stack c
  | .beginStringOrEmpty =>
    if isSpace c then some s
    else if c = '}' then
      match s.stack with
      | .objectKey ms key :: st => endValue (.objectValue ms key :: st) c
      | _ => none
    else beginString s.stack c
  | .inString ps esc => inString s.stack ps c esc
  | .inNumber text part => inNumber s.stack text part c
  | .inLiteral rest v => inLiteral s.stack v c rest
  | .endValue => afterValue s c
  | .endTop _ => afterValue s c

def run (s : State) : List Char → Option State
  | [] => some s
  | c :: cs => (step s c).bind fun s' => run s' cs

/-- The end of the text counts as a blank, so that a number at the end is complete. -/
def eof (s : State) : Option Value :=
  match step s ' ' with
  | some ⟨[], .endTop v⟩ => some v
  | _ => none

def init : State := ⟨[], .beginValue⟩

def parse (cs : List Char) : Option Value := (run init cs).bind eof

/-! ## Writing -/

def shortEscape : Char → Option Char
  | '"' => some '"'
  | '\\' => some '\\'
  | '\x08' => some 'b'
  | '\x0c' => some 'f'
  | '\n' => some 'n'
  | '\r' => some 'r'
  | '\t' => some 't'
  | _ => none

/-- Control characters, the signs with a meaning in HTML, and two line separators. -/
def isCoded (c : Char) : Bool :=
  c.toNat < 0x20 || c = '<' || c = '>' || c = '&' || c.toNat = 0x2028 || c.toNat = 0x2029

def hex4 (n : ℕ) : List Char :=
  [hexDigit (n / 4096 % 16), hexDigit (n / 256 % 16), hexDigit (n / 16 % 16), hexDigit (n % 16)]

def escape (c : Char) : List Char :=
  match shortEscape c with
  | some e => ['\\', e]
  | none => if isCoded c then '\\' :: 'u' :: hex4 c.toNat else [c]

def quote (cs : List Char) : List Char := '"' :: (cs.flatMap escape ++ ['"'])

/-! ## Runs -/

variable {s s' : State} {st : List Frame} {ms : List (List Char × Value)} {key cs cs' : List Char}
  {c : Char} {v : Value} {ps : List Piece}

@[simp] theorem run_nil (s : State) : run s [] = some s := rfl

theorem run_cons (s : State) (c : Char) (cs : List Char) :
    run s (c :: cs) = (step s c).bind fun s' => run s' cs := rfl

theorem run_append (s : State) (cs cs' : List Char) :
    run s (cs ++ cs') = (run s cs).bind fun s' => run s' cs' := by
  induction cs generalizing s with
  | nil => rfl
  | cons c cs ih =>
    rw [List.cons_append, run_cons, run_cons, Option.bind_assoc]
    exact congrArg _ (funext ih)

theorem run_of_step (h : step s c = some s') (cs : List Char) : run s (c :: cs) = run s' cs := by
  rw [run_cons, h, Option.bind_some]

/-! ## Strings are read back -/

theorem char_toNat (c : Char) : c.toNat < 0xD800 ∨ 0xDFFF < c.toNat ∧ c.toNat < 0x110000 :=
  c.valid

theorem scalar_toNat (c : Char) : scalar c.toNat = c := by
  have hc := char_toNat c
  have hcode : (isHigh c.toNat || isLow c.toNat) = false := by
    simp only [isHigh, isLow, Bool.or_eq_false_iff, Bool.and_eq_false_iff, decide_eq_false_iff_not]
    omega
  rw [scalar, hcode]
  exact c.ofNat_toNat

theorem isHigh_toNat (c : Char) : isHigh c.toNat = false := by
  have hc := char_toNat c
  simp only [isHigh, Bool.and_eq_false_iff, decide_eq_false_iff_not]
  omega

def piece (c : Char) : Piece :=
  if (shortEscape c).isNone && isCoded c then .code c.toNat else .char c

theorem join_piece_cons (c : Char) (cs : List Char) :
    join (piece c :: cs.map piece) = c :: join (cs.map piece) := by
  rw [piece]
  split
  · cases hcs : cs.map piece with
    | nil => simp [join, scalar_toNat]
    | cons p ps =>
      cases p with
      | char d => simp [join, scalar_toNat]
      | code m => simp [join, scalar_toNat, isHigh_toNat]
  · rfl

theorem join_map_piece (cs : List Char) : join (cs.map piece) = cs := by
  induction cs with
  | nil => rfl
  | cons c cs ih => rw [List.map_cons, join_piece_cons, ih]

theorem hexValue_hexDigit {n : ℕ} (h : n < 16) : hexValue (hexDigit n) = some n := by
  have hall : ∀ n : Fin 16, hexValue (hexDigit n) = some n.1 := by decide
  exact hall ⟨n, h⟩

theorem unescape_of_shortEscape {e : Char} (h : shortEscape c = some e) :
    unescape e = some c ∧ e ≠ 'u' := by
  unfold shortEscape at h
  split at h <;> cases h <;> decide

theorem run_hex4 (n : ℕ) (h : n < 2 ^ 16) (cs : List Char) :
    run ⟨st, .inString ps (.hex 4 0)⟩ (hex4 n ++ cs) =
      run ⟨st, .inString (ps ++ [.code n]) .plain⟩ cs := by
  have hvalue : 16 * (16 * (16 * (16 * 0 + n / 4096 % 16) + n / 256 % 16) + n / 16 % 16) + n % 16 =
      n := by omega
  simp only [hex4, List.cons_append, List.nil_append, run_cons, step, inString,
    hexValue_hexDigit (Nat.mod_lt _ (by decide : 0 < 16)), Option.map_some, Option.bind_some,
    show ¬4 ≤ 1 by decide, if_false, show 4 - 1 = 3 from rfl, show ¬3 ≤ 1 by decide,
    show 3 - 1 = 2 from rfl, show ¬2 ≤ 1 by decide, show 2 - 1 = 1 from rfl, le_refl, if_true, hvalue]

theorem isCoded_lt (h : isCoded c = true) : c.toNat < 2 ^ 16 := by
  simp only [isCoded, Bool.or_eq_true, decide_eq_true_eq] at h
  rcases h with ((((h | h) | h) | h) | h) | h
  · omega
  · rw [h]
    decide
  · rw [h]
    decide
  · rw [h]
    decide
  · omega
  · omega

theorem run_escape (c : Char) (cs : List Char) :
    run ⟨st, .inString ps .plain⟩ (escape c ++ cs) =
      run ⟨st, .inString (ps ++ [piece c]) .plain⟩ cs := by
  rw [escape, piece]
  cases hshort : shortEscape c with
  | some e =>
    obtain ⟨hun, hu⟩ := unescape_of_shortEscape hshort
    simp [run_cons, step, inString, hun, hu]
  | none =>
    by_cases hcoded : isCoded c = true
    · simp only [hcoded, if_true, Option.isNone_none, Bool.and_self, List.cons_append]
      have hslash : step ⟨st, .inString ps .plain⟩ '\\' = some ⟨st, .inString ps .backslash⟩ := rfl
      have hcode : step ⟨st, .inString ps .backslash⟩ 'u' = some ⟨st, .inString ps (.hex 4 0)⟩ := rfl
      rw [run_of_step hslash, run_of_step hcode, run_hex4 _ (isCoded_lt hcoded)]
    · have hquote : c ≠ '"' := by
        rintro rfl
        cases hshort
      have hslash : c ≠ '\\' := by
        rintro rfl
        cases hshort
      have hlow : ¬c.toNat < 0x20 := by
        intro hlt
        exact hcoded (by simp [isCoded, hlt])
      simp [run_cons, step, inString, hcoded, hquote, hslash, hlow]

theorem run_escaped (cs cs' : List Char) :
    run ⟨st, .inString ps .plain⟩ (cs.flatMap escape ++ cs') =
      run ⟨st, .inString (ps ++ cs.map piece) .plain⟩ cs' := by
  induction cs generalizing ps with
  | nil => simp
  | cons c cs ih =>
    rw [List.flatMap_cons, List.append_assoc, run_escape, ih]
    simp

theorem run_quoted (cs cs' : List Char) :
    run ⟨st, .inString [] .plain⟩ (cs.flatMap escape ++ '"' :: cs') =
      run (deliver (.string cs) st) cs' := by
  rw [run_escaped, List.nil_append]
  have hclose : step ⟨st, .inString (cs.map piece) .plain⟩ '"' = some (deliver (.string cs) st) := by
    simp [step, inString, join_map_piece]
  exact run_of_step hclose cs'

/-! ## Flat objects -/

inductive Scalar where
  | null
  | number (n : ℕ)
  | string (cs : List Char)
  deriving DecidableEq, Repr

def numberText (n : ℕ) : List Char := Utf8Text.text (ByteEncodings.decimal n)

def Scalar.render : Scalar → List Char
  | .null => ['n', 'u', 'l', 'l']
  | .number n => numberText n
  | .string cs => quote cs

def Scalar.value : Scalar → Value
  | .null => .null
  | .number n => .number (numberText n)
  | .string cs => .string cs

abbrev Member := List Char × Scalar

def memberText (m : Member) : List Char := quote m.1 ++ ':' :: m.2.render

def objectText (ms : List Member) : List Char :=
  '{' :: ([','].intercalate (ms.map memberText) ++ ['}'])

def memberValues (ms : List Member) : List (List Char × Value) := ms.map fun m => (m.1, m.2.value)

def Ends (c : Char) : Prop := c = ',' ∨ c = '}'

theorem Ends.next (h : Ends c) : Num.next .zero c = none ∧ Num.next .digits c = none := by
  rcases h with rfl | rfl <;> decide

theorem isDigit_of_mem {n : ℕ} (h : c ∈ numberText n) : isDigit c = true := by
  obtain ⟨b, hb, rfl⟩ := List.mem_map.mp h
  obtain ⟨hlow, hhigh⟩ := ByteEncodings.mem_decimal hb
  rw [isDigit, Utf8Text.toNat_ofNat (by omega)]
  simp [hlow, hhigh]

theorem numberText_cons {n : ℕ} (h : n ≠ 0) : ∃ d ds, numberText n = d :: ds ∧ d ≠ '0' := by
  obtain ⟨ds, d, hds⟩ :=
    (Nat.digits 10 n).eq_nil_or_concat.resolve_left (Nat.digits_ne_nil_iff_ne_zero.mpr h)
  have hlast : d ≠ 0 := by simpa [hds] using Nat.getLast_digit_ne_zero 10 h
  have hlt : d < 10 := Nat.digits_lt_base (by decide : 1 < 10) (m := n) (by simp [hds])
  refine ⟨Char.ofNat (48 + d), Utf8Text.text (ds.map ByteEncodings.digit).reverse, ?_, ?_⟩
  · rw [numberText, ByteEncodings.decimal, if_neg h, hds]
    simp [Utf8Text.text, ByteEncodings.toNat_digit hlt]
  · intro hzero
    have hnat := congrArg Char.toNat hzero
    rw [Utf8Text.toNat_ofNat (by omega)] at hnat
    exact hlast (Nat.add_left_cancel hnat)

theorem run_digits {text ds : List Char} (h : ∀ x ∈ ds, isDigit x = true) (cs : List Char) :
    run ⟨st, .inNumber text .digits⟩ (ds ++ cs) = run ⟨st, .inNumber (text ++ ds) .digits⟩ cs := by
  induction ds generalizing text with
  | nil => simp
  | cons d ds ih =>
    have hd := h d List.mem_cons_self
    have hstep : step ⟨st, .inNumber text .digits⟩ d = some ⟨st, .inNumber (text ++ [d]) .digits⟩ := by
      simp [step, inNumber, Num.next, hd]
    rw [List.cons_append, run_of_step hstep, ih fun x hx => h x (List.mem_cons_of_mem d hx)]
    simp

theorem step_deliver (v : Value) (st : List Frame) (c : Char) :
    step (deliver v st) c = afterValue (deliver v st) c := by
  cases st with
  | nil => rfl
  | cons f st =>
    cases f with
    | objectKey ms key => cases v <;> rfl
    | objectValue ms key => rfl
    | arrayValue vs => rfl

theorem run_number_end {text : List Char} {part : Num} (hnext : part.next c = none)
    (hpart : part.complete = true) (cs : List Char) :
    run ⟨st, .inNumber text part⟩ (c :: cs) = run (deliver (.number text) st) (c :: cs) := by
  rw [run_cons, run_cons, step_deliver]
  simp only [step, inNumber, hnext, hpart, if_true]

theorem begin_digit (hd : isDigit c = true) (hzero : c ≠ '0') :
    step ⟨st, .beginValue⟩ c = some ⟨st, .inNumber [c] .digits⟩ := by
  have hne : ∀ x, isDigit x = false → c ≠ x := by
    rintro x hx rfl
    rw [hd] at hx
    cases hx
  simp [step, beginValue, isSpace, hne ' ' rfl, hne '\t' rfl, hne '\r' rfl, hne '\n' rfl,
    hne '{' rfl, hne '[' rfl, hne '"' rfl, hne '-' rfl, hzero, hd]

theorem run_number (n : ℕ) (h : Ends c) (cs : List Char) :
    run ⟨st, .beginValue⟩ (numberText n ++ c :: cs) =
      run (deliver (.number (numberText n)) st) (c :: cs) := by
  by_cases hn : n = 0
  · subst hn
    exact run_number_end h.next.1 rfl cs
  · obtain ⟨d, ds, htext, hzero⟩ := numberText_cons hn
    have hd : isDigit d = true := isDigit_of_mem (n := n) (by simp [htext])
    have hds : ∀ x ∈ ds, isDigit x = true := by
      intro x hx
      exact isDigit_of_mem (n := n) (by simp [htext, hx])
    rw [htext, List.cons_append, run_of_step (begin_digit hd hzero), run_digits hds, run_number_end h.next.2 rfl]
    rfl

theorem run_scalar (v : Scalar) (h : Ends c) (cs : List Char) :
    run ⟨st, .beginValue⟩ (v.render ++ c :: cs) = run (deliver v.value st) (c :: cs) := by
  cases v with
  | null => rfl
  | number n => exact run_number n h cs
  | string text =>
    rw [Scalar.render, quote, List.cons_append, List.append_assoc]
    exact run_quoted text (c :: cs)

theorem run_member {acc : List (List Char × Value)} {mode : Mode}
    (hmode : mode = .beginString ∨ mode = .beginStringOrEmpty) (m : Member) (h : Ends c)
    (cs : List Char) :
    run ⟨.objectKey acc [] :: st, mode⟩ (memberText m ++ c :: cs) =
      run ⟨.objectValue (acc ++ [(m.1, m.2.value)]) m.1 :: st, .endValue⟩ (c :: cs) := by
  have hbegin : step ⟨.objectKey acc [] :: st, mode⟩ '"' =
      some ⟨.objectKey acc [] :: st, .inString [] .plain⟩ := by
    rcases hmode with rfl | rfl <;> rfl
  have hcolon : step ⟨.objectKey acc m.1 :: st, .endValue⟩ ':' =
      some ⟨.objectValue acc m.1 :: st, .beginValue⟩ := rfl
  have htext : memberText m ++ c :: cs =
      '"' :: (m.1.flatMap escape ++ '"' :: ':' :: (m.2.render ++ c :: cs)) := by
    simp [memberText, quote]
  rw [htext, run_of_step hbegin, run_quoted]
  exact (run_of_step hcolon _).trans (run_scalar m.2 h cs)

theorem run_members {acc : List (List Char × Value)} {mode : Mode}
    (hmode : mode = .beginString ∨ mode = .beginStringOrEmpty) {ms : List Member} (hne : ms ≠ [])
    (cs : List Char) :
    run ⟨.objectKey acc [] :: st, mode⟩ ([','].intercalate (ms.map memberText) ++ '}' :: cs) =
      run (deliver (.object (acc ++ memberValues ms)) st) cs := by
  induction ms generalizing acc mode with
  | nil => exact absurd rfl hne
  | cons m ms ih =>
    cases ms with
    | nil =>
      rw [List.map_singleton, List.intercalate_singleton, run_member hmode m (Or.inr rfl)]
      rfl
    | cons m' ms =>
      have ih := @ih (acc ++ [(m.1, m.2.value)]) .beginString (Or.inl rfl) (by simp)
      rw [List.map_cons, List.map_cons, List.intercalate_cons_cons, List.append_assoc,
        List.append_assoc, List.singleton_append, run_member hmode m (Or.inl rfl)]
      refine (run_of_step rfl _).trans (ih.trans ?_)
      simp [memberValues]

theorem run_objectText (ms : List Member) :
    run init (objectText ms) = some ⟨[], .endTop (.object (memberValues ms))⟩ := by
  have hopen : step init '{' = some ⟨[.objectKey [] []], .beginStringOrEmpty⟩ := rfl
  rw [objectText, run_of_step hopen]
  cases ms with
  | nil => rfl
  | cons m ms => exact run_members (Or.inr rfl) (by simp) []

/-- What is written is read back. -/
theorem parse_objectText (ms : List Member) :
    parse (objectText ms) = some (.object (memberValues ms)) := by
  rw [parse, run_objectText]
  rfl

/-! ## Texts that are cut off -/

/-- After the character an array or object is still open, or it was the sign that closes the
outermost one. -/
def Inside (c : Char) (s : State) : Prop :=
  s.stack ≠ [] ∨ (c = '}' ∨ c = ']') ∧ ∃ v, s = ⟨[], .endTop v⟩

theorem deliver_stack (v : Value) (h : st ≠ []) : (deliver v st).stack ≠ [] := by
  cases st with
  | nil => exact absurd rfl h
  | cons f st =>
    cases f with
    | objectKey ms key => cases v <;> simp [deliver]
    | objectValue ms key => simp [deliver]
    | arrayValue vs => simp [deliver]

theorem deliver_inside (v : Value) (st : List Frame) (h : c = '}' ∨ c = ']') :
    Inside c (deliver v st) := by
  cases st with
  | nil => exact Or.inr ⟨h, v, rfl⟩
  | cons f st => exact Or.inl (deliver_stack v (by simp))

theorem endValue_inside (h : endValue st c = some s') : Inside c s' := by
  cases st with
  | nil => cases h
  | cons f st =>
    simp only [endValue] at h
    split at h
    · cases h
      exact Or.inl (by simp)
    · cases f with
      | objectKey ms key =>
        dsimp only at h
        split at h <;> cases h
        exact Or.inl (by simp)
      | objectValue ms key =>
        dsimp only at h
        split at h
        · cases h
          exact Or.inl (by simp)
        split at h <;> cases h
        rename_i hc
        exact deliver_inside _ _ (Or.inl hc)
      | arrayValue vs =>
        dsimp only at h
        split at h
        · cases h
          exact Or.inl (by simp)
        split at h <;> cases h
        rename_i hc
        exact deliver_inside _ _ (Or.inr hc)

theorem afterValue_inside (hs : s.stack ≠ []) (h : afterValue s c = some s') : Inside c s' := by
  rw [afterValue] at h
  split at h
  · split at h <;> cases h
    exact Or.inl hs
  · exact endValue_inside h

theorem push_stack {f : Frame} {mode : Mode} (h : push st f mode = some s') : s'.stack ≠ [] := by
  rw [push] at h
  split at h <;> cases h
  simp

theorem beginValue_stack (hst : st ≠ []) (h : beginValue st c = some s') : s'.stack ≠ [] := by
  unfold beginValue at h
  repeat' split at h
  all_goals first
    | exact push_stack h
    | (cases h; exact hst)
    | cases h

theorem beginString_stack (hst : st ≠ []) (h : beginString st c = some s') : s'.stack ≠ [] := by
  unfold beginString at h
  repeat' split at h
  all_goals cases h
  all_goals exact hst

theorem inString_stack {esc : Esc} (hst : st ≠ []) (h : inString st ps c esc = some s') :
    s'.stack ≠ [] := by
  cases esc with
  | plain =>
    simp only [inString] at h
    repeat' split at h
    all_goals cases h
    · exact deliver_stack _ hst
    · exact hst
    · exact hst
  | backslash =>
    simp only [inString] at h
    split at h
    · cases h
      exact hst
    · obtain ⟨d, -, rfl⟩ := Option.map_eq_some_iff.mp h
      exact hst
  | hex missing value =>
    obtain ⟨d, -, rfl⟩ := Option.map_eq_some_iff.mp h
    split <;> exact hst

theorem inLiteral_stack {rest : List Char} (hst : st ≠ []) (h : inLiteral st v c rest = some s') :
    s'.stack ≠ [] := by
  cases rest with
  | nil => cases h
  | cons d rest =>
    simp only [inLiteral] at h
    repeat' split at h
    all_goals cases h
    · exact deliver_stack _ hst
    · exact hst

theorem step_inside (hs : s.stack ≠ []) (h : step s c = some s') : Inside c s' := by
  obtain ⟨st, mode⟩ := s
  cases mode with
  | beginValue => exact Or.inl (beginValue_stack hs h)
  | beginValueOrEmpty =>
    simp only [step] at h
    split at h
    · cases h
      exact Or.inl hs
    split at h
    · exact endValue_inside h
    · exact Or.inl (beginValue_stack hs h)
  | beginString => exact Or.inl (beginString_stack hs h)
  | beginStringOrEmpty =>
    simp only [step] at h
    split at h
    · cases h
      exact Or.inl hs
    split at h
    · split at h
      · exact endValue_inside h
      · cases h
    · exact Or.inl (beginString_stack hs h)
  | inString ps esc => exact Or.inl (inString_stack hs h)
  | inNumber text part =>
    simp only [step, inNumber] at h
    split at h
    · cases h
      exact Or.inl hs
    split at h
    · exact afterValue_inside (deliver_stack _ hs) h
    · cases h
  | inLiteral rest v => exact Or.inl (inLiteral_stack hs h)
  | endValue => exact afterValue_inside hs h
  | endTop v => exact afterValue_inside hs h

theorem run_closed (h : run ⟨[], .endTop v⟩ cs = some s') : ∀ c ∈ cs, isSpace c = true := by
  induction cs with
  | nil => simp
  | cons c cs ih =>
    have hstep : step ⟨[], .endTop v⟩ c = if isSpace c then some ⟨[], .endTop v⟩ else none := rfl
    rw [run_cons, hstep] at h
    split at h
    · rename_i hc
      simpa [hc] using ih h
    · cases h

theorem run_open (hs : s.stack ≠ []) (h : run s (cs ++ cs') = some s')
    (hmore : ∃ c ∈ cs', isSpace c = false) : ∃ u, run s cs = some u ∧ u.stack ≠ [] := by
  induction cs generalizing s with
  | nil => exact ⟨s, rfl, hs⟩
  | cons c cs ih =>
    rw [List.cons_append, run_cons] at h
    obtain ⟨u, hstep, hrun⟩ := Option.bind_eq_some_iff.mp h
    rw [run_of_step hstep]
    rcases step_inside hs hstep with hu | ⟨-, v, rfl⟩
    · exact ih hu hrun
    · obtain ⟨d, hd, hspace⟩ := hmore
      rw [run_closed hrun d (List.mem_append_right _ hd)] at hspace
      cases hspace

theorem run_stack (hs : s.stack ≠ []) (hcs : ∀ c ∈ cs, c ≠ '}' ∧ c ≠ ']')
    (h : run s cs = some s') : s'.stack ≠ [] := by
  induction cs generalizing s with
  | nil =>
    cases h
    exact hs
  | cons c cs ih =>
    obtain ⟨u, hstep, hrun⟩ := Option.bind_eq_some_iff.mp h
    obtain ⟨hbrace, hbracket⟩ := hcs c List.mem_cons_self
    rcases step_inside hs hstep with hu | ⟨hc, -⟩
    · exact ih hu (fun x hx => hcs x (List.mem_cons_of_mem c hx)) hrun
    · exact absurd hc (by simp [hbrace, hbracket])

theorem eof_open (hs : s.stack ≠ []) : eof s = none := by
  rw [eof]
  split
  · rename_i v h
    rcases step_inside hs h with hu | ⟨hc, -⟩
    · exact absurd rfl hu
    · exact absurd hc (by decide)
  · rfl

theorem parse_cut {junk : List Char} (h : run init ('{' :: cs ++ cs') = some s)
    (hmore : ∃ c ∈ cs', isSpace c = false) (hjunk : ∀ c ∈ junk, c ≠ '}' ∧ c ≠ ']') :
    parse ('{' :: cs ++ junk) = none := by
  have hopen : step init '{' = some ⟨[.objectKey [] []], .beginStringOrEmpty⟩ := rfl
  rw [List.cons_append, run_of_step hopen] at h
  obtain ⟨u, hu, hstack⟩ := run_open (by simp) h hmore
  rw [parse, List.cons_append, run_of_step hopen, run_append, hu, Option.bind_some]
  cases hrun : run u junk with
  | none => rfl
  | some w => exact eof_open (run_stack hstack hjunk hrun)

theorem parse_high (h : ∀ c ∈ cs, 128 ≤ c.toNat) : parse cs = none := by
  cases cs with
  | nil => rfl
  | cons c cs =>
    have hc := h c List.mem_cons_self
    have hne : ∀ x : Char, x.toNat < 128 → c ≠ x := by
      rintro x hx rfl
      omega
    have hdigit : isDigit c = false := by
      simp only [isDigit, Bool.and_eq_false_iff, decide_eq_false_iff_not]
      omega
    have hstep : step init c = none := by
      simp [step, init, beginValue, isSpace, hdigit, hne ' ' (by decide), hne '\t' (by decide),
        hne '\r' (by decide), hne '\n' (by decide), hne '{' (by decide), hne '[' (by decide),
        hne '"' (by decide), hne '-' (by decide), hne '0' (by decide), hne 't' (by decide),
        hne 'f' (by decide), hne 'n' (by decide)]
    rw [parse, run_cons, hstep]
    rfl

/-- Of an object's text no proper beginning is a text, not even with more characters beyond ASCII
behind it. -/
theorem parse_objectText_cut {ms : List Member} {junk : List Char} (hpre : cs <+: objectText ms)
    (hne : cs ≠ objectText ms) (hjunk : ∀ c ∈ junk, 128 ≤ c.toNat) : parse (cs ++ junk) = none := by
  cases cs with
  | nil => exact parse_high hjunk
  | cons c cs =>
    obtain ⟨more, hmore⟩ := hpre
    rw [objectText, List.cons_append] at hmore
    obtain ⟨rfl, htail⟩ := List.cons.inj hmore
    have hlast : '}' ∈ more := by
      cases hm : more.reverse with
      | nil =>
        rw [List.reverse_eq_nil_iff] at hm
        rw [hm, List.append_nil] at hmore
        exact absurd hmore hne
      | cons d ds =>
        have hrev := congrArg List.reverse htail
        rw [List.reverse_append, hm, List.reverse_append] at hrev
        rw [← List.mem_reverse, hm, (List.cons.inj hrev).1]
        exact List.mem_cons_self
    refine parse_cut (s := ⟨[], .endTop (.object (memberValues ms))⟩) ?_ ⟨'}', hlast, rfl⟩ ?_
    · rw [← run_objectText ms, objectText, ← htail]
      rfl
    · intro x hx
      have hhigh := hjunk x hx
      constructor
      · rintro rfl
        exact absurd hhigh (by decide)
      · rintro rfl
        exact absurd hhigh (by decide)

end JsonText
