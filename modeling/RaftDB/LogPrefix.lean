import Mathlib.Data.List.Infix

/-! Lists as logs: facts about positions, prefixes, cuts, changes at one position and partial maps
of the entries. -/
namespace LogPrefix

variable {E : Type*} {l m : List E}

theorem getElem?_of_isPrefix (h : l <+: m) {i : ℕ} {e : E} (he : l[i]? = some e) :
    m[i]? = some e := by
  obtain ⟨t, rfl⟩ := h
  obtain ⟨hi, _⟩ := List.getElem?_eq_some_iff.mp he
  rwa [List.getElem?_append_left hi]

theorem getElem?_of_take {i n : ℕ} {e : E} (he : (l.take n)[i]? = some e) :
    l[i]? = some e :=
  getElem?_of_isPrefix (List.take_prefix n l) he

theorem lt_of_getElem? {i : ℕ} {e : E} (he : l[i]? = some e) : i < l.length :=
  (List.getElem?_eq_some_iff.mp he).1

theorem take_of_isPrefix (h : l <+: m) {n : ℕ} (hn : n ≤ l.length) : m.take n = l.take n := by
  obtain ⟨t, rfl⟩ := h
  exact List.take_append_of_le_length hn

theorem prefix_total {k : List E} (hl : l <+: k) (hm : m <+: k) : l <+: m ∨ m <+: l :=
  List.prefix_or_prefix_of_prefix hl hm

theorem take_congr {n : ℕ} (h : ∀ i, i < n → l[i]? = m[i]?) : l.take n = m.take n := by
  apply List.ext_getElem?
  intro i
  by_cases hi : i < n
  · rw [List.getElem?_take_of_lt hi, List.getElem?_take_of_lt hi]
    exact h i hi
  · rw [List.getElem?_take, List.getElem?_take, if_neg hi, if_neg hi]

theorem getElem?_of_take_eq {n i : ℕ} (h : l.take n = m.take n) (hi : i < n) :
    l[i]? = m[i]? := by
  have ht : (l.take n)[i]? = (m.take n)[i]? := by rw [h]
  rwa [List.getElem?_take_of_lt hi, List.getElem?_take_of_lt hi] at ht

theorem take_prefix_of_take_eq {n k : ℕ} (h : l.take n = m.take n) (hk : k ≤ n) :
    l.take k = m.take k :=
  take_congr fun _ hi => getElem?_of_take_eq h (hi.trans_le hk)

theorem prefix_take_of_le (h : l <+: m) {n : ℕ} (hn : l.length ≤ n) : l <+: m.take n := by
  obtain ⟨t, rfl⟩ := h
  rw [List.take_append]
  simp [List.take_of_length_le hn]

theorem take_succ_length {i : ℕ} {e : E} (he : l[i]? = some e) : (l.take (i + 1)).length = i + 1 := by
  have := lt_of_getElem? he
  simp only [List.length_take]
  omega

/-- Positions of a log cut at `j` and continued with another log's positions `j` to `n`. -/
theorem getElem?_cut {j n i : ℕ} (hj : j ≤ l.length) :
    (l.take j ++ (m.take n).drop j)[i]? = if i < j then l[i]? else (m.take n)[i]? := by
  have hlen : (l.take j).length = j := by simp [hj]
  split
  · rename_i hi
    rw [List.getElem?_append_left (by omega), List.getElem?_take_of_lt hi]
  · rename_i hi
    rw [List.getElem?_append_right (by omega), hlen, List.getElem?_drop]
    congr 1
    omega

theorem length_cut {j n : ℕ} (hj : j ≤ l.length) (hjn : j ≤ n) (hn : n ≤ m.length) :
    (l.take j ++ (m.take n).drop j).length = n := by
  simp only [List.length_append, List.length_take, List.length_drop]
  omega

theorem getElem?_concat {x e : E} {i : ℕ} (he : (l ++ [x])[i]? = some e) :
    l[i]? = some e ∨ (i = l.length ∧ e = x) := by
  rcases lt_or_ge i l.length with hi | hi
  · rw [List.getElem?_append_left hi] at he
    exact Or.inl he
  · have hlen := lt_of_getElem? he
    simp only [List.length_append, List.length_singleton] at hlen
    have hi' : i = l.length := by omega
    subst hi'
    simp only [List.getElem?_concat_length, Option.some.injEq] at he
    exact Or.inr ⟨rfl, he.symm⟩

theorem getElem?_set_cases {x e : E} {i k : ℕ} (he : (l.set k x)[i]? = some e) :
    i = k ∧ e = x ∨ i ≠ k ∧ l[i]? = some e := by
  by_cases hik : i = k
  · subst hik
    have hlt := lt_of_getElem? he
    rw [List.length_set] at hlt
    rw [List.getElem?_set_self hlt] at he
    exact Or.inl ⟨rfl, (Option.some.inj he).symm⟩
  · rw [List.getElem?_set_ne (Ne.symm hik)] at he
    exact Or.inr ⟨hik, he⟩

theorem getElem?_modify_cases {f : E → E} {e : E} {i k : ℕ}
    (he : (l.modify k f)[i]? = some e) :
    i = k ∧ (∃ x, l[k]? = some x ∧ e = f x) ∨ i ≠ k ∧ l[i]? = some e := by
  rw [List.getElem?_modify] at he
  obtain ⟨x, hx, rfl⟩ := Option.map_eq_some_iff.mp he
  by_cases hik : i = k
  · subst hik
    exact Or.inl ⟨rfl, x, hx, if_pos rfl⟩
  · rw [if_neg (Ne.symm hik)]
    exact Or.inr ⟨hik, hx⟩

section Common

variable [DecidableEq E] {n : ℕ}

/-- How far two logs agree from the start. -/
def commonLength : List E → List E → ℕ
  | x :: l, y :: m => if x = y then commonLength l m + 1 else 0
  | _, _ => 0

theorem le_commonLength :
    n ≤ commonLength l m ↔ n ≤ l.length ∧ n ≤ m.length ∧ l.take n = m.take n := by
  induction l generalizing m n with
  | nil => cases n <;> simp [commonLength]
  | cons x l ih =>
    cases m with
    | nil => cases n <;> simp [commonLength]
    | cons y m =>
      cases n with
      | zero => simp
      | succ n =>
        by_cases hxy : x = y
        · simp [commonLength, hxy, ih]
        · simp [commonLength, hxy]

theorem commonLength_le : commonLength l m ≤ l.length ∧ commonLength l m ≤ m.length :=
  ⟨(le_commonLength.mp le_rfl).1, (le_commonLength.mp le_rfl).2.1⟩

theorem take_commonLength : l.take (commonLength l m) = m.take (commonLength l m) :=
  (le_commonLength.mp le_rfl).2.2

end Common

theorem take_append_cons (xs ys : List E) (y : E) (k : ℕ) :
    (xs ++ y :: ys).take k = xs.take k ∨
      (xs ++ y :: ys).take k = xs ++ y :: ys.take (k - xs.length - 1) := by
  rcases Nat.lt_or_ge xs.length k with h | h
  · right
    obtain ⟨j, rfl⟩ := Nat.exists_eq_add_of_lt h
    rw [List.take_append, List.take_of_length_le (by omega)]
    congr 1
    rw [show xs.length + j + 1 - xs.length = j + 1 by omega, List.take_succ_cons]
    rfl
  · left
    exact List.take_append_of_le_length h

theorem exists_of_mapM {F : Type*} {f : E → Option F} {ys : List F}
    (h : l.mapM f = some ys) {y : F} (hy : y ∈ ys) : ∃ x ∈ l, f x = some y := by
  induction l generalizing ys with
  | nil =>
    cases h
    cases hy
  | cons x xs ih =>
    rw [List.mapM_cons] at h
    obtain ⟨z, hz, hrest⟩ := Option.bind_eq_some_iff.mp h
    obtain ⟨zs, hzs, hys⟩ := Option.bind_eq_some_iff.mp hrest
    cases hys
    rcases List.mem_cons.mp hy with rfl | hy
    · exact ⟨x, List.mem_cons_self, hz⟩
    · obtain ⟨w, hw, hfw⟩ := ih hzs hy
      exact ⟨w, List.mem_cons_of_mem _ hw, hfw⟩

theorem exists_none_of_mapM {F : Type*} {f : E → Option F}
    (h : l.mapM f = none) : ∃ x ∈ l, f x = none := by
  induction l with
  | nil => cases h
  | cons x xs ih =>
    cases hx : f x with
    | none => exact ⟨x, List.mem_cons_self, hx⟩
    | some y =>
      cases hxs : xs.mapM f with
      | none =>
        obtain ⟨z, hz, hfz⟩ := ih hxs
        exact ⟨z, List.mem_cons_of_mem _ hz, hfz⟩
      | some ys => simp [List.mapM_cons, hx, hxs] at h

end LogPrefix
