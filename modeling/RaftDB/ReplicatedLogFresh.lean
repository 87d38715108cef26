import RaftDB.ReplicatedLogHistory

/-!
# Logs while nothing stale is installed

Three more facts about the protocol that hold until a stale prefix is installed: a log is
ordered by term and bounded by the term of its node, and a node that once agreed with the log
of its term's leader on a prefix keeps that prefix as long as it stays in the term.
-/
namespace ReplicatedLog

open MajorityQuorum LogPrefix Function

variable {N E : Type*} {tm : E → ℕ} {qs : QuorumSystem N} {s s' : State N E} {v w : N}

/-- Without stale prefixes terms never decrease along a log. -/
theorem Invariant.log_sorted (h : Invariant tm qs s) (hf : ¬s.stale) {i j : ℕ} {x y : E}
    (hx : (s.log w)[i]? = some x) (hy : (s.log w)[j]? = some y) (hij : i ≤ j) : tm x ≤ tm y :=
  h.le_of_match hx hij (h.fresh_match hf hy)

theorem Invariant.covered_terms (h : Invariant tm qs s) {T n : ℕ} (hc : CoveredBy s (· ≤ T) n)
    {i : ℕ} (hi : i < n) {e : E} (he : s.chosen[i]? = some e) : tm e ≤ T := by
  rcases hc with rfl | ⟨cm, hcm, hle, hn⟩
  · omega
  · have hlen := (h.chosen.own hcm).upTo_length
    have htake := take_of_isPrefix (h.chosen.upTo_chosen hcm) (n := n) (by omega)
    rw [getElem?_of_take_eq htake hi] at he
    exact (h.leaders.entry_term (getElem?_of_isPrefix (upTo_isPrefix _ _) he)).trans hle

def TermBounded (tm : E → ℕ) (s : State N E) : Prop :=
  ∀ w, ∀ e ∈ s.log w, tm e ≤ s.term w

/-- The node agrees with the leader log of `T` on `m` positions, unless it has left the term. If
it has not reached the term yet, a commit of its own term or an earlier one keeps it so. -/
def Possesses (s : State N E) (w : N) (T m : ℕ) : Prop :=
  m = 0 ∨ (m ≤ (s.leaderLog T).length ∧
    (s.term w ≤ T → (s.log w).take m = (s.leaderLog T).take m) ∧
    (s.term w < T → CoveredBy s (· ≤ s.term w) m))

theorem Possesses.of_le {T m k : ℕ} (h : Possesses s w T m) (hk : k ≤ m) : Possesses s w T k := by
  rcases h with rfl | ⟨hm, hagree, hcov⟩
  · exact Or.inl (Nat.le_zero.mp hk)
  · refine Or.inr ⟨hk.trans hm, fun ht => take_prefix_of_take_eq (hagree ht) hk, fun ht => ?_⟩
    exact (hcov ht).mono (fun _ => id) (fun _ => id) hk

theorem Invariant.possesses_committed (h : Invariant tm qs s) (hf : ¬s.stale) {T m : ℕ}
    (hwon : s.winner T ≠ none) (hcov : CoveredBy s (· ≤ T) m) (hm : m ≤ s.commit w) :
    Possesses s w T m := by
  have hchosen := h.covered_take hwon hcov
  have hlog := h.take_commit w hm
  refine Or.inr ⟨?_, fun _ => hlog.trans hchosen, fun _ => ?_⟩
  · have hlen := congrArg List.length hchosen
    rw [List.length_take, List.length_take] at hlen
    have := hm.trans (h.commit_le_chosen w)
    omega
  · exact (h.fresh_cover hf w).mono (fun _ => id) (fun _ => id) hm

variable [DecidableEq N]

theorem Step.termBounded (hs : Step tm qs w s s') (h : Invariant tm qs s) (hf : ¬s'.stale)
    (hb : TermBounded tm s) : TermBounded tm s' := by
  have hg := hs.grows h
  intro v e he
  by_cases hv : v = w
  swap
  · rw [(hs.untouched hv).log] at he
    exact (hb v e he).trans (hg.term v)
  subst hv
  cases hs with
  | propose _ _ x hrole hx =>
    rw [show (s.proposed v x).log v = s.log v ++ [x] from update_self _ _ _] at he
    rcases List.mem_append.mp he with he | he
    · exact hb v e he
    · rw [List.mem_singleton.mp he]
      exact hx.le
  | accept _ _ prev n l hrole hwon hpn hn hprev hgraft hkeep =>
    rw [show (s.accepted v n l).log v = l from update_self _ _ _] at he
    cases hgraft with
    | kept _ => exact hb v e he
    | cut j _ _ _ _ _ =>
      rcases List.mem_append.mp he with he | he
      · exact hb v e (List.mem_of_mem_take he)
      · obtain ⟨i, hi⟩ := List.getElem?_of_mem (List.mem_of_mem_take (List.mem_of_mem_drop he))
        exact h.leaders.entry_term hi
  | install _ _ n hrole hlt hn =>
    have hcov : CoveredBy s (· ≤ s.term v) n := by
      by_contra hc
      exact hf (Or.inr hc)
    rw [show (s.installed tm v n).log v = reseated tm (s.log v) s.chosen n from
      update_self _ _ _] at he
    rcases List.mem_append.mp he with he | he
    · obtain ⟨i, hi⟩ := List.getElem?_of_mem he
      have hin : i < n := by
        have := lt_of_getElem? hi
        rw [List.length_take] at this
        omega
      exact h.covered_terms hcov hin (getElem?_of_take hi)
    · split at he
      · exact hb v e (List.mem_of_mem_drop he)
      · cases he
  | _ => exact (hb v e he).trans (hg.term v)

/-- A move keeps what its node has in common with the leader of its term and with every
prefix that this leader has committed. -/
theorem Step.keeps_prefix (hs : Step tm qs w s s') (hf : ¬s'.stale) {m : ℕ}
    (hlen : m ≤ (s.log w).length)
    (hlead : s.winner (s.term w) ≠ none → (s.log w).take m = (s.leaderLog (s.term w)).take m)
    (hcover : ∀ {n}, CoveredBy s (· ≤ s.term w) n →
      (s.log w).take (min m n) = s.chosen.take (min m n)) :
    (s'.log w).take m = (s.log w).take m := by
  cases hs with
  | propose _ _ x hrole hx =>
    rw [show (s.proposed w x).log w = s.log w ++ [x] from update_self _ _ _,
      List.take_append_of_le_length hlen]
  | accept _ _ prev n l hrole hwon hpn hn hprev hgraft hkeep =>
    rw [show (s.accepted w n l).log w = l from update_self _ _ _]
    cases hgraft with
    | kept _ => rfl
    | cut j _ hjn hjl _ hdiff =>
      have hmj : m ≤ j := by
        by_contra hlt
        have hx : (s.log w)[j]? = some (s.log w)[j] := List.getElem?_eq_getElem (by omega)
        have hsame := getElem?_of_take_eq (hlead hwon) (not_le.mp hlt)
        exact hdiff ⟨_, _, hx, hsame.symm.trans hx, rfl⟩
      rw [List.take_append_of_le_length (by rw [List.length_take]; omega), List.take_take,
        Nat.min_eq_left hmj]
  | install _ _ n hrole hlt hn =>
    have hcov : CoveredBy s (· ≤ s.term w) n := by
      by_contra hc
      exact hf (Or.inr hc)
    have hagree := hcover hcov
    rw [show (s.installed tm w n).log w = reseated tm (s.log w) s.chosen n from
      update_self _ _ _]
    rcases le_total m n with hle | hle
    · rw [Nat.min_eq_left hle] at hagree
      rw [take_prefix_of_take_eq (reseated_take hn) hle, hagree]
    · rw [Nat.min_eq_right hle] at hagree
      rw [reseated_eq_self (by omega) hn hagree]
  | _ => rfl

theorem Possesses.step {T m : ℕ} (hp : Possesses s v T m) (h : Invariant tm qs s)
    (hf : ¬s'.stale) (hs : Step tm qs w s s') : Possesses s' v T m := by
  rcases hp with rfl | ⟨hm, hagree, hcov⟩
  · exact Or.inl rfl
  have hg := hs.grows h
  refine (Nat.eq_zero_or_pos m).imp id fun hpos =>
    ⟨hm.trans (hg.leaderLog T).length_le, fun hterm => ?_, fun hterm => ?_⟩
  swap
  · have hle := hg.term v
    exact (hg.covered (hcov (hle.trans_lt hterm))).mono (fun _ => id) (fun _ hx => hx.trans hle)
      le_rfl
  have hold : s.term v ≤ T := (hg.term v).trans hterm
  rw [take_of_isPrefix (hg.leaderLog T) hm, ← hagree hold]
  by_cases hv : v = w
  swap
  · rw [(hs.untouched hv).log]
  subst hv
  have hwon : s.winner T ≠ none := by
    intro hnone
    rw [h.leaders.unwon hnone] at hm
    exact absurd hm (not_le.mpr hpos)
  have hchosen : ∀ {n}, CoveredBy s (· ≤ s.term v) n →
      (s.log v).take (min m n) = s.chosen.take (min m n) := by
    intro n hc
    have hT : CoveredBy s (· ≤ T) n := hc.mono (fun _ => id) (fun _ hx => hx.trans hold) le_rfl
    rw [take_prefix_of_take_eq (hagree hold) (Nat.min_le_left m n)]
    exact (take_prefix_of_take_eq (h.covered_take hwon hT) (Nat.min_le_right m n)).symm
  refine hs.keeps_prefix hf ?_ (fun hown => ?_) hchosen
  · have := congrArg List.length (hagree hold)
    rw [List.length_take, List.length_take] at this
    omega
  · rcases Nat.lt_or_eq_of_le hold with hlt | heq
    · have hself := hchosen (hcov hlt)
      rw [Nat.min_self] at hself
      exact hself.trans (h.covered_take hown (hcov hlt))
    · rw [heq]
      exact hagree hold

theorem Possesses.evolves {T m : ℕ} (hp : Possesses s v T m) (h : Invariant tm qs s)
    (hf : ¬s'.stale) (ha : Evolves tm qs s s') : Possesses s' v T m :=
  ha.keeps (P := fun s => Possesses s v T m) h hf hp fun hi hfy hx hs => hx.step hi hfy hs

def Confirmed (s : State N E) : Prop := ∀ w T, Possesses s w T (s.confirmed w T)

theorem Step.confirmed (hs : Step tm qs w s s') (h : Invariant tm qs s) (hf : ¬s'.stale)
    (hc : Confirmed s) : Confirmed s' := by
  have hi := hs.invariant h
  have hold : ∀ v T, s'.confirmed v T = s.confirmed v T → Possesses s' v T (s'.confirmed v T) := by
    intro v T heq
    rw [heq]
    exact (hc v T).step h hf hs
  have hlead : s'.role w = .leader → Possesses s' w (s'.term w) (s'.confirmed w (s'.term w)) := by
    intro hrole
    obtain ⟨_, hlog, hconf⟩ := (hi.roles w).leader hrole
    exact Or.inr ⟨hconf.le, fun _ => by rw [hlog], fun hlt => absurd hlt (lt_irrefl _)⟩
  intro v T
  by_cases hv : v = w
  swap
  · exact hold v T (by rw [(hs.untouched hv).confirmed])
  subst hv
  cases hs with
  | elect _ _ Q hrole hQ hvotes =>
    by_cases hT : T = s.term v
    · rw [hT]
      exact hlead (update_self _ _ _)
    · exact hold v T (elected_confirmed_of_ne hT v)
  | propose _ _ x hrole hx =>
    by_cases hT : T = s.term v
    · rw [hT]
      exact hlead hrole
    · exact hold v T ((proposed_confirmed v T).trans (if_neg fun heq => hT heq.2))
  | accept _ _ prev n l hrole hwon hpn hn hprev hgraft hkeep =>
    by_cases hT : T = s.term v
    swap
    · exact hold v T ((accepted_confirmed v T).trans (if_neg fun heq => hT heq.2))
    subst hT
    have hst : ¬s.stale := hf
    rw [accepted_confirmed, if_pos ⟨rfl, rfl⟩]
    rcases le_total n (s.confirmed v (s.term v)) with hle | hle
    · rw [Nat.max_eq_left hle]
      exact (hc v _).step h hf (.accept s v prev n l hrole hwon hpn hn hprev hgraft hkeep)
    · rw [Nat.max_eq_right hle]
      refine Or.inr ⟨hn, fun _ => ?_, fun hlt => absurd hlt (lt_irrefl _)⟩
      rw [accepted_log_self]
      exact h.accept_fresh hst hwon (h.accept_agree hprev hpn hn hgraft) hkeep
  | _ => exact hold v T rfl

def NoneStoodAtZero (s : State N E) : Prop := ∀ c, s.candidacy c 0 = none

theorem Step.noneStoodAtZero (hs : Step tm qs w s s') (h : NoneStoodAtZero s) :
    NoneStoodAtZero s' := by
  intro c
  cases hs with
  | stand =>
    by_cases hc : c = w
    · subst hc
      simp [State.stood, h c]
    · simp [State.stood, hc, h c]
  | _ => exact h c

omit [DecidableEq N] in
theorem Invariant.won_pos (h : Invariant tm qs s) (hz : NoneStoodAtZero s) {U : ℕ}
    (hU : s.winner U ≠ none) : 1 ≤ U := by
  obtain ⟨c, hc⟩ := Option.ne_none_iff_exists'.mp hU
  obtain ⟨hquorum, hvotes⟩ := h.wins hc
  obtain ⟨v, hv, _⟩ := qs.meets hquorum hquorum
  obtain ⟨r, hr⟩ := h.votes.vote_candidacy (hvotes v hv)
  by_contra hlt
  obtain rfl : U = 0 := by omega
  rw [hz c] at hr
  cases hr

end ReplicatedLog
