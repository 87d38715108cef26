import RaftDB.RaftTypes
import Mathlib.Order.Nat
import Mathlib.Data.List.Infix

/-! # Index arithmetic of the log slice

In a log whose entries are numbered consecutively above the sentinel, every translation
from an index to a slot is exact. -/
namespace Raft

/-- The entries carry the indices `n + 1`, `n + 2`, and so on. -/
def Consecutive : ℕ → List LogEntry → Prop
  | _, [] => True
  | n, e :: es => e.index = n + 1 ∧ Consecutive (n + 1) es

instance decidableConsecutive : (n : ℕ) → (es : List LogEntry) → Decidable (Consecutive n es)
  | _, [] => .isTrue trivial
  | n, e :: es =>
    have := decidableConsecutive (n + 1) es
    inferInstanceAs (Decidable (e.index = n + 1 ∧ Consecutive (n + 1) es))

theorem consecutive_append {n : ℕ} {a b : List LogEntry} :
    Consecutive n (a ++ b) ↔ Consecutive n a ∧ Consecutive (n + a.length) b := by
  induction a generalizing n with
  | nil => simp [Consecutive]
  | cons e es ih =>
    simp only [List.cons_append, Consecutive, List.length_cons, ih, and_assoc]
    rw [show n + 1 + es.length = n + (es.length + 1) by omega]

theorem Consecutive.index_eq {n k : ℕ} {es : List LogEntry} {e : LogEntry}
    (h : Consecutive n es) (he : es[k]? = some e) : e.index = n + k + 1 := by
  induction es generalizing n k with
  | nil => simp at he
  | cons x xs ih =>
    cases k with
    | zero =>
      simp only [List.getElem?_cons_zero, Option.some.injEq] at he
      rw [← he, h.1, Nat.add_zero]
    | succ k =>
      simp only [List.getElem?_cons_succ] at he
      have := ih h.2 he
      omega

theorem Consecutive.take {n : ℕ} {es : List LogEntry} (h : Consecutive n es) (k : ℕ) :
    Consecutive n (es.take k) := by
  rw [← List.take_append_drop k es] at h
  exact (consecutive_append.mp h).1

theorem Consecutive.drop {n k : ℕ} {es : List LogEntry} (h : Consecutive n es)
    (hk : k ≤ es.length) : Consecutive (n + k) (es.drop k) := by
  rw [← List.take_append_drop k es] at h
  have := (consecutive_append.mp h).2
  rwa [List.length_take, Nat.min_eq_left hk] at this

theorem consecutive_of_index {n : ℕ} {es : List LogEntry}
    (h : ∀ (k : ℕ) e, es[k]? = some e → e.index = n + k + 1) : Consecutive n es := by
  induction es generalizing n with
  | nil => trivial
  | cons x xs ih =>
    refine ⟨h 0 x rfl, ih fun k e he => ?_⟩
    have := h (k + 1) e he
    omega

theorem Consecutive.last_index {n : ℕ} {es : List LogEntry} {e : LogEntry}
    (h : Consecutive n es) (he : es.getLast? = some e) : e.index = n + es.length := by
  rw [List.getLast?_eq_getElem?] at he
  have hi := h.index_eq he
  have hlen : 0 < es.length := by
    cases es with
    | nil => simp at he
    | cons x xs => simp
  omega

theorem Consecutive.index_bounds {n : ℕ} {es : List LogEntry} (h : Consecutive n es)
    {e : LogEntry} (he : e ∈ es) : n < e.index ∧ e.index ≤ n + es.length := by
  obtain ⟨k, hk⟩ := List.mem_iff_getElem?.mp he
  have hi := h.index_eq hk
  have hlt := (List.getElem?_eq_some_iff.mp hk).1
  omega

theorem uint64Sub_of_le {a b : ℕ} (h : b ≤ a) : uint64Sub a b = a - b := by
  rw [uint64Sub, if_pos h]

namespace RaftLog

def Numbered (log : RaftLog) : Prop := Consecutive log.base log.entries

instance (log : RaftLog) : Decidable log.Numbered := decidableConsecutive _ _

variable {log : RaftLog}

theorem Numbered.lastLogIndex_eq (h : log.Numbered) :
    log.lastLogIndex = log.base + log.entries.length := by
  rw [lastLogIndex, last]
  cases hl : log.entries.getLast? with
  | none =>
    rw [List.getLast?_eq_none_iff] at hl
    simp [hl, base]
  | some e => exact h.last_index hl

theorem Numbered.base_le_last (h : log.Numbered) : log.base ≤ log.lastLogIndex := by
  rw [h.lastLogIndex_eq]
  omega

theorem termAt_base (log : RaftLog) : log.termAt log.base = some log.sentinel.term := by
  simp [termAt, slots, uint64Sub_of_le le_rfl]

theorem termAt_above (log : RaftLog) {i : ℕ} (hi : log.base < i) :
    log.termAt i = (log.entries[i - log.base - 1]?).map LogEntry.term := by
  rw [termAt, uint64Sub_of_le hi.le, slots]
  obtain ⟨k, hk⟩ : ∃ k, i - log.base = k + 1 := ⟨i - log.base - 1, by omega⟩
  rw [hk, List.getElem?_cons_succ, Nat.add_sub_cancel]

theorem Numbered.termAt_isSome (h : log.Numbered) {i : ℕ} (hb : log.base ≤ i)
    (hl : i ≤ log.lastLogIndex) : ∃ t, log.termAt i = some t := by
  rcases Nat.lt_or_eq_of_le hb with hlt | rfl
  · rw [h.lastLogIndex_eq] at hl
    rw [log.termAt_above hlt, List.getElem?_eq_getElem (by omega)]
    exact ⟨_, rfl⟩
  · exact ⟨_, log.termAt_base⟩

theorem Numbered.termAt_last (h : log.Numbered) :
    log.termAt log.lastLogIndex = some log.lastLogTerm := by
  rw [lastLogTerm, last]
  cases hl : log.entries.getLast? with
  | none =>
    rw [lastLogIndex, last, hl]
    exact log.termAt_base
  | some e =>
    have hpos : 0 < log.entries.length := List.length_pos_of_mem (List.mem_of_getLast? hl)
    rw [List.getLast?_eq_getElem?] at hl
    rw [h.lastLogIndex_eq, log.termAt_above (by omega),
      show log.base + log.entries.length - log.base - 1 = log.entries.length - 1 by omega, hl]
    rfl

theorem Numbered.entriesFrom_eq (h : log.Numbered) {i : ℕ} (hb : log.base < i)
    (hl : i ≤ log.lastLogIndex + 1) :
    log.entriesFrom i = some (log.entries.drop (i - log.base - 1)) := by
  rw [h.lastLogIndex_eq] at hl
  obtain ⟨k, hk⟩ : ∃ k, i - log.base = k + 1 := ⟨i - log.base - 1, by omega⟩
  rw [entriesFrom, uint64Sub_of_le hb.le, hk]
  simp only [slots, List.length_cons, List.drop_succ_cons, Nat.add_sub_cancel]
  rw [if_pos (by omega)]

theorem Numbered.append (hn : log.Numbered)
    {new : List LogEntry} (hc : Consecutive log.lastLogIndex new) :
    Numbered ⟨log.sentinel, log.entries ++ new⟩ := by
  rw [hn.lastLogIndex_eq] at hc
  exact consecutive_append.mpr ⟨hn, hc⟩

def Ordered (log : RaftLog) : Prop := log.slots.Pairwise fun x y => x.term ≤ y.term

instance (log : RaftLog) : Decidable log.Ordered := by
  rw [Ordered]
  infer_instance

theorem Ordered.termAt_le (h : log.Ordered) {i j a b : ℕ} (hb : log.base ≤ i)
    (hij : i ≤ j) (hi : log.termAt i = some a) (hj : log.termAt j = some b) : a ≤ b := by
  rw [termAt, uint64Sub_of_le hb] at hi
  rw [termAt, uint64Sub_of_le (hb.trans hij)] at hj
  obtain ⟨x, hx, rfl⟩ := Option.map_eq_some_iff.mp hi
  obtain ⟨y, hy, rfl⟩ := Option.map_eq_some_iff.mp hj
  rcases Nat.lt_or_eq_of_le hij with hlt | rfl
  · obtain ⟨hxl, rfl⟩ := List.getElem?_eq_some_iff.mp hx
    obtain ⟨hyl, rfl⟩ := List.getElem?_eq_some_iff.mp hy
    exact List.pairwise_iff_getElem.mp h _ _ hxl hyl (by omega)
  · rw [hx] at hy
    cases hy
    exact le_rfl

section History

variable {below : List LogEntry} {i k : ℕ}

/-- The log from index 1 on, with what the boundary covers taken from the given list. -/
def history (log : RaftLog) (below : List LogEntry) : List LogEntry :=
  below.take log.base ++ log.entries

theorem history_take_base (hb : log.base ≤ below.length) (hk : k ≤ log.base) :
    (log.history below).take k = below.take k := by
  rw [history, List.take_append_of_le_length (by simp; omega), List.take_take, Nat.min_eq_left hk]

theorem history_length (hb : log.base ≤ below.length) (hn : log.Numbered) :
    (log.history below).length = log.lastLogIndex := by
  simp [history, hn.lastLogIndex_eq, hb]

theorem history_getElem? (hb : log.base ≤ below.length) (hi : log.base ≤ i) :
    (log.history below)[i]? = log.entries[i - log.base]? := by
  rw [history, List.getElem?_append_right (by simp; omega)]
  simp [hb]

theorem history_drop (hb : log.base ≤ below.length) (hi : log.base ≤ i) :
    (log.history below).drop i = log.entries.drop (i - log.base) := by
  have hlen : (below.take log.base).length = log.base := by simp [hb]
  rw [history, List.drop_append, hlen, List.drop_eq_nil_of_le (by omega), List.nil_append]

theorem history_cut (hb : log.base ≤ below.length) (k : ℕ) (new : List LogEntry) :
    RaftLog.history ⟨log.sentinel, log.entries.take k ++ new⟩ below =
      (log.history below).take (log.base + k) ++ new := by
  have hlen : (below.take log.base).length = log.base := by simp [hb]
  change below.take log.base ++ (log.entries.take k ++ new) = _
  rw [history, List.take_append, hlen, Nat.add_sub_cancel_left,
    List.take_of_length_le (l := below.take log.base) (by omega), List.append_assoc]

end History

end RaftLog

end Raft
