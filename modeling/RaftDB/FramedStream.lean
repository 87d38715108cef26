import Mathlib.Data.List.Basic
import Mathlib.Order.Nat

/-!
# Streams of framed records

A stream is the concatenation of the frames of its records. A reader recognises the first record
of a stream and looks at nothing behind it; a fold takes in one record after the other until the
reader finds none. If the reader recognises whole frames only, a stream that is cut at any point
folds like the records that lie wholly before the cut.
-/
namespace FramedStream

variable {β α σ ε : Type*}

/-- Finds the first record of a stream and how many symbols it takes. -/
structure Reader (β α : Type*) where
  read : List β → Option (α × ℕ)
  pos : ∀ {bs a n}, read bs = some (a, n) → 0 < n
  le : ∀ {bs a n}, read bs = some (a, n) → n ≤ bs.length
  /-- What lies behind the record plays no role. -/
  stable : ∀ {bs a n}, read bs = some (a, n) → ∀ more, read (bs.take n ++ more) = some (a, n)

section Folds

variable (R : Reader β α) (step : σ → α → Except ε σ)

/-- Takes in the records of a stream; the result comes with the end of the last one. -/
def Reader.fold (s : σ) (offset : ℕ) (bs : List β) : Except ε (σ × ℕ) :=
  match _h : R.read bs with
  | none => .ok (s, offset)
  | some (a, n) =>
    match step s a with
    | .error e => .error e
    | .ok s' => fold s' (offset + n) (bs.drop n)
termination_by bs.length
decreasing_by
  have := R.pos _h
  have := R.le _h
  rw [List.length_drop]
  omega

variable {R step} {s : σ} {offset n : ℕ} {bs : List β} {a : α}

theorem Reader.read_nil (R : Reader β α) : R.read [] = none := by
  cases h : R.read [] with
  | none => rfl
  | some x =>
    have hpos := R.pos h
    have hle := R.le h
    simp only [List.length_nil] at hle
    omega

theorem Reader.fold_of_none (h : R.read bs = none) :
    R.fold step s offset bs = .ok (s, offset) := by
  rw [Reader.fold]
  split
  · rfl
  · simp_all

theorem Reader.fold_of_some (h : R.read bs = some (a, n)) :
    R.fold step s offset bs =
      (step s a).bind fun s' => R.fold step s' (offset + n) (bs.drop n) := by
  rw [Reader.fold]
  split
  · simp_all
  · rename_i a' n' h'
    cases h.symm.trans h'
    cases step s a <;> rfl

end Folds

section Scans

variable (R : Reader β α)

def Reader.scan (bs : List β) : List α × List β :=
  match _h : R.read bs with
  | none => ([], bs)
  | some (a, n) => (a :: (scan (bs.drop n)).1, (scan (bs.drop n)).2)
termination_by bs.length
decreasing_by
  all_goals
    have := R.pos _h
    have := R.le _h
    rw [List.length_drop]
    omega

def Reader.records (bs : List β) : List α := (R.scan bs).1

def Reader.rest (bs : List β) : List β := (R.scan bs).2

def Reader.whole (bs : List β) : List β := bs.take (bs.length - (R.rest bs).length)

variable {R} {step : σ → α → Except ε σ} {s s' : σ} {offset n : ℕ} {bs more : List β} {a : α}

theorem Reader.induction {P : List β → Prop} (hnone : ∀ bs, R.read bs = none → P bs)
    (hsome : ∀ bs a n, R.read bs = some (a, n) → P (bs.drop n) → P bs) (bs : List β) : P bs := by
  induction hlen : bs.length using Nat.strong_induction_on generalizing bs with
  | _ len ih =>
    cases hr : R.read bs with
    | none => exact hnone bs hr
    | some x =>
      have hpos := R.pos hr
      have hle := R.le hr
      exact hsome bs x.1 x.2 hr (ih _ (by rw [List.length_drop]; omega) _ rfl)

theorem Reader.scan_of_none (h : R.read bs = none) : R.scan bs = ([], bs) := by
  rw [Reader.scan]
  split
  · rfl
  · simp_all

theorem Reader.scan_of_some (h : R.read bs = some (a, n)) :
    R.scan bs = (a :: R.records (bs.drop n), R.rest (bs.drop n)) := by
  rw [Reader.scan]
  split
  · simp_all
  · rename_i a' n' h'
    cases h.symm.trans h'
    rfl

theorem Reader.records_of_none (h : R.read bs = none) : R.records bs = [] :=
  congrArg Prod.fst (scan_of_none h)

theorem Reader.rest_of_none (h : R.read bs = none) : R.rest bs = bs :=
  congrArg Prod.snd (scan_of_none h)

theorem Reader.records_of_some (h : R.read bs = some (a, n)) :
    R.records bs = a :: R.records (bs.drop n) :=
  congrArg Prod.fst (scan_of_some h)

theorem Reader.rest_of_some (h : R.read bs = some (a, n)) : R.rest bs = R.rest (bs.drop n) := by
  rw [Reader.rest, scan_of_some h]

@[simp] theorem Reader.records_nil (R : Reader β α) : R.records [] = [] :=
  records_of_none R.read_nil

@[simp] theorem Reader.rest_nil (R : Reader β α) : R.rest [] = [] := rest_of_none R.read_nil

theorem Reader.rest_suffix (R : Reader β α) (bs : List β) : R.rest bs <:+ bs := by
  induction bs using R.induction with
  | hnone bs h => simp [rest_of_none h]
  | hsome bs a n h ih =>
    rw [rest_of_some h]
    exact ih.trans (List.drop_suffix n bs)

theorem Reader.whole_append_rest (R : Reader β α) (bs : List β) :
    R.whole bs ++ R.rest bs = bs := by
  obtain ⟨front, hfront⟩ := R.rest_suffix bs
  have hlen : bs.length - (R.rest bs).length = front.length := by
    have := congrArg List.length hfront
    rw [List.length_append] at this
    omega
  have htake : bs.take front.length = front := by
    rw [← hfront]
    exact List.take_left
  rw [Reader.whole, hlen, htake, hfront]

theorem Reader.take_whole (R : Reader β α) (bs : List β) :
    bs.take (R.whole bs).length = R.whole bs := by
  have hleft : (R.whole bs ++ R.rest bs).take (R.whole bs).length = R.whole bs := List.take_left
  rwa [whole_append_rest] at hleft

theorem Reader.whole_of_rest (h : R.rest bs = []) : R.whole bs = bs := by
  have := R.whole_append_rest bs
  rwa [h, List.append_nil] at this

theorem Reader.whole_of_some (h : R.read bs = some (a, n)) :
    R.whole bs = bs.take n ++ R.whole (bs.drop n) := by
  have hsplit : R.whole bs ++ R.rest bs = (bs.take n ++ R.whole (bs.drop n)) ++ R.rest bs := by
    rw [whole_append_rest, rest_of_some h, List.append_assoc, whole_append_rest,
      List.take_append_drop]
  exact List.append_cancel_right hsplit

/-- What follows the records of a stream is read as if it stood alone. -/
theorem Reader.scan_whole_append (R : Reader β α) (bs more : List β) :
    R.scan (R.whole bs ++ more) = (R.records bs ++ R.records more, R.rest more) := by
  induction bs using R.induction with
  | hnone bs h =>
    have hnil : R.whole bs = [] := by simp [Reader.whole, rest_of_none h]
    rw [hnil, records_of_none h]
    rfl
  | hsome bs a n h ih =>
    have hle := R.le h
    have hread : R.read (R.whole bs ++ more) = some (a, n) := by
      rw [whole_of_some h, List.append_assoc]
      exact R.stable h _
    have hdrop : (R.whole bs ++ more).drop n = R.whole (bs.drop n) ++ more := by
      rw [whole_of_some h, List.append_assoc]
      exact List.drop_left' (by simp [hle])
    rw [scan_of_some hread, hdrop, Reader.records, Reader.rest, ih, records_of_some h]
    rfl

theorem Reader.records_append (h : R.rest bs = []) (more : List β) :
    R.records (bs ++ more) = R.records bs ++ R.records more := by
  have := congrArg Prod.fst (R.scan_whole_append bs more)
  rwa [whole_of_rest h] at this

theorem Reader.rest_append (h : R.rest bs = []) (more : List β) :
    R.rest (bs ++ more) = R.rest more := by
  have := congrArg Prod.snd (R.scan_whole_append bs more)
  rwa [whole_of_rest h] at this

theorem Reader.records_whole (R : Reader β α) (bs : List β) :
    R.records (R.whole bs) = R.records bs := by
  have := congrArg Prod.fst (R.scan_whole_append bs [])
  rwa [List.append_nil, records_nil, List.append_nil] at this

theorem Reader.rest_whole (R : Reader β α) (bs : List β) : R.rest (R.whole bs) = [] := by
  have := congrArg Prod.snd (R.scan_whole_append bs [])
  rwa [List.append_nil, rest_nil] at this

/-- The symbols behind the last record are not readable, whatever follows them. -/
def Reader.Sealed (R : Reader β α) (bs : List β) : Prop :=
  ∀ more, R.read (R.rest bs ++ more) = none

theorem Reader.Sealed.scan_append (h : R.Sealed bs) (more : List β) :
    R.scan (bs ++ more) = (R.records bs, R.rest bs ++ more) := by
  have hsplit : bs ++ more = R.whole bs ++ (R.rest bs ++ more) := by
    rw [← List.append_assoc, whole_append_rest]
  rw [hsplit, scan_whole_append, records_of_none (h more), rest_of_none (h more), List.append_nil]

theorem Reader.read_take (h : R.read bs = none) (n : ℕ) : R.read (bs.take n) = none := by
  cases hr : R.read (bs.take n) with
  | none => rfl
  | some x =>
    have hmore := R.stable hr ((bs.take n).drop x.2 ++ bs.drop n)
    rw [← List.append_assoc, List.take_append_drop, List.take_append_drop, h] at hmore
    cases hmore

/-- A fold is the fold of the records, and it ends where they end. -/
theorem Reader.fold_eq (R : Reader β α) (step : σ → α → Except ε σ) (s : σ) (offset : ℕ)
    (bs : List β) :
    R.fold step s offset bs =
      ((R.records bs).foldlM step s).map fun s' => (s', offset + (R.whole bs).length) := by
  induction bs using R.induction generalizing s offset with
  | hnone bs h =>
    have hnil : R.whole bs = [] := by simp [Reader.whole, rest_of_none h]
    rw [fold_of_none h, records_of_none h, hnil]
    rfl
  | hsome bs a n h ih =>
    have hle := R.le h
    rw [fold_of_some h, records_of_some h, whole_of_some h, List.foldlM_cons]
    cases hs : step s a with
    | error e => rfl
    | ok s₁ =>
      have hlen : (bs.take n ++ R.whole (bs.drop n)).length = n + (R.whole (bs.drop n)).length := by
        simp [hle]
      rw [hlen, ← Nat.add_assoc]
      exact ih s₁ (offset + n)

end Scans

section Streams

variable {R : Reader β α} {frame : α → List β} {step : σ → α → Except ε σ} {s : σ}
  {offset n : ℕ} {tail : List β} {a : α} {as : List α}

/-- The reader recognises the frame of the record, but no part of it. -/
structure Reads (R : Reader β α) (frame : α → List β) (a : α) : Prop where
  whole : ∀ rest, R.read (frame a ++ rest) = some (a, (frame a).length)
  torn : ∀ k < (frame a).length, R.read ((frame a).take k) = none

def stream (frame : α → List β) (as : List α) : List β := as.flatMap frame

@[simp] theorem stream_nil : stream frame [] = [] := rfl

@[simp] theorem stream_cons : stream frame (a :: as) = frame a ++ stream frame as := rfl

@[simp] theorem stream_append (as bs : List α) :
    stream frame (as ++ bs) = stream frame as ++ stream frame bs :=
  List.flatMap_append

theorem Reads.scan (h : Reads R frame a) (rest : List β) :
    R.scan (frame a ++ rest) = (a :: R.records rest, R.rest rest) := by
  rw [Reader.scan_of_some (h.whole rest), List.drop_left]

theorem scan_stream (h : ∀ a ∈ as, Reads R frame a) (htail : R.read tail = none) :
    R.scan (stream frame as ++ tail) = (as, tail) := by
  induction as with
  | nil => exact Reader.scan_of_none htail
  | cons a as ih =>
    have has := ih fun b hb => h b (List.mem_cons_of_mem a hb)
    rw [stream_cons, List.append_assoc, (h a List.mem_cons_self).scan, Reader.records, Reader.rest,
      has]

theorem fold_stream (h : ∀ a ∈ as, Reads R frame a) (htail : R.read tail = none) :
    R.fold step s offset (stream frame as ++ tail) =
      (as.foldlM step s).map fun s' => (s', offset + (stream frame as).length) := by
  have hscan := scan_stream h htail
  have hwhole : R.whole (stream frame as ++ tail) = stream frame as := by
    have hsplit := R.whole_append_rest (stream frame as ++ tail)
    rw [Reader.rest, hscan] at hsplit
    exact List.append_cancel_right hsplit
  rw [Reader.fold_eq, Reader.records, hscan, hwhole]

def wholeWithin (frame : α → List β) : ℕ → List α → List α
  | _, [] => []
  | n, a :: as =>
    if (frame a).length ≤ n then a :: wholeWithin frame (n - (frame a).length) as else []

theorem wholeWithin_isPrefix (frame : α → List β) (n : ℕ) (as : List α) :
    wholeWithin frame n as <+: as := by
  induction as generalizing n with
  | nil => exact List.nil_prefix
  | cons a as ih =>
    rw [wholeWithin]
    split
    · exact (List.prefix_cons_inj a).mpr (ih _)
    · exact List.nil_prefix

/-- Behind the whole records there is at most a part of a frame. -/
theorem take_stream (h : ∀ a ∈ as, Reads R frame a) (n : ℕ) :
    ∃ tail, R.read tail = none ∧
      (stream frame as).take n = stream frame (wholeWithin frame n as) ++ tail := by
  induction as generalizing n with
  | nil => exact ⟨[], R.read_nil, by simp [wholeWithin]⟩
  | cons a as ih =>
    rw [wholeWithin]
    split
    · rename_i hle
      obtain ⟨tail, htail, heq⟩ :=
        ih (fun b hb => h b (List.mem_cons_of_mem a hb)) (n - (frame a).length)
      refine ⟨tail, htail, ?_⟩
      rw [stream_cons, stream_cons, List.take_append, List.take_of_length_le hle, heq,
        List.append_assoc]
    · rename_i hgt
      refine ⟨(frame a).take n, (h a List.mem_cons_self).torn n (by omega), ?_⟩
      rw [stream_cons, List.take_append_of_le_length (by omega)]
      rfl

end Streams

end FramedStream
