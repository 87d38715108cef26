import Mathlib.Data.List.Infix
import Mathlib.Order.Basic

/-!
# Text as bytes

Characters in UTF-8, and the reading of arbitrary bytes as text that puts the replacement
character for every byte that starts no valid sequence. Text survives, and of text that is cut
off inside a character only characters beyond ASCII are made up.
-/
namespace Utf8Text

def encode (cs : List Char) : List UInt8 := cs.flatMap String.utf8EncodeChar

def replacement : Char := '�'

/-- The first character and the number of its bytes. -/
def decodeRune (bs : List UInt8) : Char × ℕ :=
  match bs.toByteArray.utf8DecodeChar? 0 with
  | some c => (c, c.utf8Size)
  | none => (replacement, 1)

def decodeFrom : ℕ → List UInt8 → List Char
  | _, [] => []
  | skip + 1, _ :: bs => decodeFrom skip bs
  | 0, b :: bs => (decodeRune (b :: bs)).1 :: decodeFrom ((decodeRune (b :: bs)).2 - 1) bs

def decode (bs : List UInt8) : List Char := decodeFrom 0 bs

example : decode [0x41, 0xc3, 0xa9, 0xc3, 0xff] = ['A', 'é', replacement, replacement] := by
  decide +kernel

variable {c : Char} {cs : List Char} {b : UInt8} {bs : List UInt8}

theorem encode_cons (c : Char) (cs : List Char) :
    encode (c :: cs) = String.utf8EncodeChar c ++ encode cs := rfl

theorem encode_append (cs cs' : List Char) : encode (cs ++ cs') = encode cs ++ encode cs' :=
  List.flatMap_append

theorem decodeFrom_eq (skip : ℕ) (bs : List UInt8) : decodeFrom skip bs = decode (bs.drop skip) := by
  induction skip generalizing bs with
  | zero => rfl
  | succ skip ih =>
    cases bs with
    | nil => rfl
    | cons b bs => exact ih bs

theorem decode_cons (b : UInt8) (bs : List UInt8) : decode (b :: bs) =
    (decodeRune (b :: bs)).1 :: decode (bs.drop ((decodeRune (b :: bs)).2 - 1)) := by
  rw [decode, decodeFrom, decodeFrom_eq]

theorem decodeRune_encode (c : Char) (bs : List UInt8) :
    decodeRune (String.utf8EncodeChar c ++ bs) = (c, c.utf8Size) := by
  rw [decodeRune, List.toByteArray_append, ByteArray.utf8DecodeChar?_utf8EncodeChar_append]

theorem encodeChar_ne_nil (c : Char) : String.utf8EncodeChar c ≠ [] := by
  intro h
  have hlen := String.length_utf8EncodeChar c
  rw [h] at hlen
  exact absurd hlen (Nat.ne_of_lt c.utf8Size_pos)

theorem decode_encode_cons (c : Char) (bs : List UInt8) :
    decode (String.utf8EncodeChar c ++ bs) = c :: decode bs := by
  have hrune := decodeRune_encode c bs
  have hlen := String.length_utf8EncodeChar c
  cases henc : String.utf8EncodeChar c with
  | nil => exact absurd henc (encodeChar_ne_nil c)
  | cons b tail =>
    rw [henc, List.cons_append] at hrune
    rw [henc, List.length_cons] at hlen
    rw [List.cons_append, decode_cons, hrune, ← hlen, Nat.add_sub_cancel, List.drop_left]

theorem decode_encode_append (cs : List Char) (bs : List UInt8) :
    decode (encode cs ++ bs) = cs ++ decode bs := by
  induction cs with
  | nil => rfl
  | cons c cs ih =>
    rw [encode_cons, List.append_assoc, decode_encode_cons, ih]
    rfl

theorem decode_encode (cs : List Char) : decode (encode cs) = cs := by
  have h := decode_encode_append cs []
  rwa [List.append_nil, show decode [] = [] from rfl, List.append_nil] at h

theorem encodeChar_ascii (h : c.toNat < 128) : String.utf8EncodeChar c = [.ofNat c.toNat] := by
  have hsize : c.utf8Size = 1 := Char.utf8Size_eq_one_iff.mpr (by
    rw [UInt32.le_iff_toNat_le]
    exact Nat.le_of_lt_succ h)
  rw [String.utf8EncodeChar_eq_singleton hsize]
  rfl

theorem or_high (x y : UInt8) (h : 128 ≤ y.toNat) : 128 ≤ (x ||| y).toNat := by
  rw [UInt8.toNat_or]
  exact h.trans Nat.right_le_or

theorem encodeChar_high (h : 128 ≤ c.toNat) (hb : b ∈ String.utf8EncodeChar c) : 128 ≤ b.toNat := by
  rcases c.utf8Size_eq with hsize | hsize | hsize | hsize
  · have hle := UInt32.le_iff_toNat_le.mp (Char.utf8Size_eq_one_iff.mp hsize)
    exact absurd (h.trans hle) (by decide)
  · rw [String.utf8EncodeChar_eq_cons_cons hsize] at hb
    simp only [List.mem_cons, List.not_mem_nil, or_false] at hb
    rcases hb with rfl | rfl <;> exact or_high _ _ (by decide)
  · rw [String.utf8EncodeChar_eq_cons_cons_cons hsize] at hb
    simp only [List.mem_cons, List.not_mem_nil, or_false] at hb
    rcases hb with rfl | rfl | rfl <;> exact or_high _ _ (by decide)
  · rw [String.utf8EncodeChar_eq_cons_cons_cons_cons hsize] at hb
    simp only [List.mem_cons, List.not_mem_nil, or_false] at hb
    rcases hb with rfl | rfl | rfl | rfl <;> exact or_high _ _ (by decide)

theorem decodeRune_high (h : 128 ≤ b.toNat) : 128 ≤ (decodeRune (b :: bs)).1.toNat := by
  rw [decodeRune]
  split
  · rename_i c hc
    obtain ⟨l, hl⟩ := ByteArray.exists_of_utf8DecodeChar?_eq_some hc
    by_contra hlt
    rw [encodeChar_ascii (not_le.mp hlt)] at hl
    have hfirst : b = .ofNat c.toNat := by
      have := congrArg (fun x => x.data.toList.head?) hl
      simpa using this
    rw [hfirst, UInt8.toNat_ofNat'] at h
    exact hlt (h.trans (Nat.mod_le _ _))
  · decide

theorem decode_high (h : ∀ b ∈ bs, 128 ≤ b.toNat) : ∀ c ∈ decode bs, 128 ≤ c.toNat := by
  induction hn : bs.length using Nat.strongRecOn generalizing bs with
  | _ n ih =>
    cases bs with
    | nil =>
      intro c hc
      cases hc
    | cons b bs =>
      intro c hc
      rw [decode_cons] at hc
      rcases List.mem_cons.mp hc with rfl | hc
      · exact decodeRune_high (h b List.mem_cons_self)
      · refine ih _ ?_ (fun x hx => h x (List.mem_cons_of_mem _ (List.mem_of_mem_drop hx))) rfl c hc
        rw [← hn, List.length_cons, List.length_drop]
        omega

def text (bs : List UInt8) : List Char := bs.map fun b => Char.ofNat b.toNat

theorem toNat_ofNat {n : ℕ} (h : n < 128) : (Char.ofNat n).toNat = n := by
  rw [Char.ofNat, dif_pos (Or.inl (by omega))]
  rfl

theorem encode_text (h : ∀ b ∈ bs, b.toNat < 128) : encode (text bs) = bs := by
  induction bs with
  | nil => rfl
  | cons b bs ih =>
    have hb := h b List.mem_cons_self
    have hnat := toNat_ofNat hb
    change encode (Char.ofNat b.toNat :: text bs) = b :: bs
    rw [encode_cons, encodeChar_ascii (by rw [hnat]; exact hb), hnat, UInt8.ofNat_toNat,
      ih fun x hx => h x (List.mem_cons_of_mem b hx)]
    rfl

/-- Text that is cut off reads as its whole characters and a few beyond ASCII. -/
theorem decode_of_isPrefix (h : bs <+: encode cs) :
    ∃ whole rest, decode bs = whole ++ rest ∧ whole <+: cs ∧ (∀ c ∈ rest, 128 ≤ c.toNat) ∧
      (bs ≠ encode cs → whole ≠ cs) := by
  induction cs generalizing bs with
  | nil =>
    rw [List.prefix_nil.mp h]
    exact ⟨[], [], rfl, List.prefix_refl _, by simp, fun hne => absurd rfl hne⟩
  | cons c cs ih =>
    rw [encode_cons] at h ⊢
    rcases Nat.lt_or_ge bs.length (String.utf8EncodeChar c).length with hlt | hle
    · -- the cut is inside the character, which then is beyond ASCII unless nothing is left of it
      have hpre := (List.isPrefix_append_of_length hlt.le).mp h
      refine ⟨[], decode bs, rfl, List.nil_prefix, ?_, fun _ => by simp⟩
      by_cases hc : c.toNat < 128
      · rw [encodeChar_ascii hc, List.length_singleton, Nat.lt_one_iff] at hlt
        rw [List.length_eq_zero_iff.mp hlt]
        simp [decode, decodeFrom]
      · exact decode_high fun b hb => encodeChar_high (not_lt.mp hc) (hpre.subset hb)
    · obtain ⟨tail, rfl⟩ := List.prefix_of_prefix_length_le (List.prefix_append _ _) h hle
      have htail := (List.prefix_append_right_inj _).mp h
      obtain ⟨whole, rest, hdec, hpre, hhigh, hne⟩ := ih htail
      refine ⟨c :: whole, rest, ?_, ?_, hhigh, ?_⟩
      · rw [decode_encode_cons, hdec]
        rfl
      · exact List.cons_prefix_cons.mpr ⟨rfl, hpre⟩
      · intro hcut heq
        exact hne (fun h' => hcut (by rw [h'])) (List.cons.inj heq).2

end Utf8Text
