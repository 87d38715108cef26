import RaftDB.ReplicatedLogElection

/-! # Appending from a leader and installing a chosen prefix

Both moves replace one follower's log. Each keeps every prefix the follower had confirmed:
a graft cuts only where the leader's log differs, and a secured prefix is comparable with
the chosen one. -/
namespace ReplicatedLog

open MajorityQuorum LogPrefix Function

variable {N E : Type*} {tm : E → ℕ} {qs : QuorumSystem N} {s : State N E}

theorem Secure.replace {s' : State N E} {P : N → Prop} {T i : ℕ} {w : N}
    (h : Secure tm s P T i)
    (hheld : P w → Holds tm s (s.log w) T i → Holds tm s (s'.log w) T i)
    (hlog : ∀ v, v ≠ w → s'.log v = s.log v) (hvoted : s'.voted = s.voted)
    (hcand : s'.candidacy = s.candidacy) (hwin : s'.winner = s.winner)
    (hinh : s'.inherited = s.inherited) (hll : s'.leaderLog = s.leaderLog) :
    Secure tm s' P T i := by
  have hup : upTo s' T i = upTo s T i := by rw [upTo, upTo, hll]
  constructor
  · intro v hv
    rw [Holds, hup]
    by_cases hvw : v = w
    · subst hvw
      exact hheld hv (h.held v hv)
    · rw [hlog v hvw]
      exact h.held v hv
  · rw [hvoted, hcand]
    exact h.votes
  · rw [hwin, hinh, hup]
    exact h.inherits

section Accept

variable {w : N} {prev n : ℕ} {l : List E}

theorem Invariant.agree_of_sameTerm (h : Invariant tm qs s) {i : ℕ} (hi : s.base w ≤ i) {X : ℕ}
    (hsame : SameTermAt tm (s.log w) (s.leaderLog X) i) :
    ∀ j, s.base w ≤ j → j ≤ i → (s.log w)[j]? = (s.leaderLog X)[j]? := by
  obtain ⟨x, y, hx, hy, hxy⟩ := hsame
  intro j hj hji
  rw [(h.logs w).entry_match hi hx j hj hji, hxy,
    getElem?_of_take_eq (h.leaders.entry_match hy) (by omega)]

/-- The consistency check and the matching part of the walk make the logs agree. -/
theorem Invariant.agree_of_walk (h : Invariant tm qs s) {X j : ℕ}
    (hprev : prev < s.base w ∨ prev ≤ (s.log w).length ∧
      termBefore tm (s.log w) prev = termBefore tm (s.leaderLog X) prev)
    (hlen : prev ≤ (s.leaderLog X).length)
    (hwalk : ∀ i, max prev (s.base w) ≤ i → i < j → SameTermAt tm (s.log w) (s.leaderLog X) i) :
    ∀ i, s.base w ≤ i → i < j → (s.log w)[i]? = (s.leaderLog X)[i]? := by
  intro i hi hij
  by_cases hip : prev ≤ i
  · exact h.agree_of_sameTerm hi (hwalk i (by omega) hij) i hi le_rfl
  · obtain ⟨p, rfl⟩ : ∃ p, prev = p + 1 := ⟨prev - 1, by omega⟩
    obtain ⟨hl, hterm⟩ := hprev.resolve_left (by omega)
    have hx : (s.log w)[p]? = some (s.log w)[p] := List.getElem?_eq_getElem hl
    have hy : (s.leaderLog X)[p]? = some (s.leaderLog X)[p] := List.getElem?_eq_getElem hlen
    refine h.agree_of_sameTerm (i := p) (by omega) ⟨_, _, hx, hy, ?_⟩ i hi (by omega)
    simpa only [termBefore, hx, hy, Option.map_some, Option.getD_some] using hterm

theorem Invariant.accept_agree (h : Invariant tm qs s) {X : ℕ}
    (hprev : prev < s.base w ∨ prev ≤ (s.log w).length ∧
      termBefore tm (s.log w) prev = termBefore tm (s.leaderLog X) prev)
    (hpn : prev ≤ n) (hn : n ≤ (s.leaderLog X).length)
    (hg : Grafted tm (s.leaderLog X) (max prev (s.base w)) n (s.log w) l) :
    ∀ i, s.base w ≤ i → i < n → l[i]? = (s.leaderLog X)[i]? := by
  intro i hi hin
  cases hg with
  | kept hwalk => exact h.agree_of_walk hprev (hpn.trans hn) hwalk i hi hin
  | cut j hstart hjn hjl hwalk _ =>
    rw [getElem?_cut hjl]
    split
    · rename_i hij
      exact h.agree_of_walk hprev (hpn.trans hn) hwalk i hi hij
    · rw [List.getElem?_take_of_lt hin]

theorem Grafted.cases_length {source l' : List E} {start : ℕ} (hn : n ≤ source.length)
    (hg : Grafted tm source start n l l') : l' = l ∨ l'.length = n := by
  cases hg with
  | kept _ => exact Or.inl rfl
  | cut j _ hjn hjl _ _ => exact Or.inr (length_cut hjl hjn.le hn)

theorem Invariant.accept_nodeLog (h : Invariant tm qs s) {X : ℕ}
    (hagree : ∀ i, s.base w ≤ i → i < n → l[i]? = (s.leaderLog X)[i]?)
    (hlen : l = s.log w ∨ l.length = n)
    (hkeep : l.take (s.commit w) = (s.log w).take (s.commit w)) :
    NodeLog tm s.leaderLog s.chosen (s.base w) (s.commit w) l := by
  have hl := h.logs w
  constructor
  case entry_match =>
    rcases hlen with rfl | hlen
    · exact hl.entry_match
    · intro i e hi he j hj hji
      have hin := lt_of_getElem? he
      rw [hagree i hi (by omega)] at he
      rw [hagree j hj (by omega), getElem?_of_take_eq (h.leaders.entry_match he) (by omega)]
  case base_le => exact hl.base_le
  case commit_le =>
    have hle := hl.commit_le
    have := congrArg List.length hkeep
    simp only [List.length_take] at this
    omega
  case commit_chosen =>
    rw [hkeep]
    exact hl.commit_chosen

theorem Invariant.accept_holds (h : Invariant tm qs s) {X T i start : ℕ} (ho : Own tm s T i)
    (hp : upTo s T i <+: s.leaderLog X)
    (hg : Grafted tm (s.leaderLog X) start n (s.log w) l)
    (hh : Holds tm s (s.log w) T i) : Holds tm s l T i := by
  cases hg with
  | kept _ => exact hh
  | cut j _ hjn hjl _ hdiff =>
    obtain ⟨x, hx, hxt⟩ := ho.upTo_entry
    have hij : i < j := by
      by_contra hle
      have hlen := ho.upTo_length
      have hy : (upTo s T i)[j]? = some (upTo s T i)[j] :=
        List.getElem?_eq_getElem (by omega)
      exact hdiff ⟨_, _, getElem?_of_isPrefix hh.1 hy, getElem?_of_isPrefix hp hy, rfl⟩
    refine ⟨?_, fun p e hip he => ?_⟩
    · refine List.IsPrefix.trans ?_ (List.prefix_append _ _)
      exact prefix_take_of_le hh.1 (by rw [ho.upTo_length]; omega)
    · rw [getElem?_cut hjl] at he
      split at he
      · exact hh.2 p e hip he
      · exact hxt ▸ h.leaderLog_sorted (getElem?_of_isPrefix hp hx) (getElem?_of_take he) hip.le

theorem Invariant.accept_fresh (h : Invariant tm qs s) (hf : ¬ s.stale)
    (hwon : s.winner (s.term w) ≠ none)
    (hagree : ∀ i, s.base w ≤ i → i < n → l[i]? = (s.leaderLog (s.term w))[i]?)
    (hkeep : l.take (s.commit w) = (s.log w).take (s.commit w)) :
    l.take n = (s.leaderLog (s.term w)).take n := by
  apply take_congr
  intro i hi
  by_cases hb : s.base w ≤ i
  · exact hagree i hb hi
  · have hcov := h.covered_take hwon (h.fresh_cover hf w)
    have hle := (h.logs w).base_le
    rw [getElem?_of_take_eq hkeep (by omega),
      getElem?_of_take_eq (h.take_commit w le_rfl) (by omega), getElem?_of_take_eq hcov (by omega)]

theorem Invariant.accept_match (h : Invariant tm qs s) (hf : ¬ s.stale) {X : ℕ}
    (htake : l.take n = (s.leaderLog X).take n)
    (hlen : l = s.log w ∨ l.length = n) {i : ℕ} {e : E} (he : l[i]? = some e) :
    l.take (i + 1) = (s.leaderLog (tm e)).take (i + 1) := by
  rcases hlen with rfl | hlen
  · exact h.fresh_match hf he
  · have hin := lt_of_getElem? he
    rw [getElem?_of_take_eq htake (by omega)] at he
    rw [take_prefix_of_take_eq htake (by omega)]
    exact h.leaders.entry_match he

/-- What the follower newly confirms it holds, or a stale prefix covered it. -/
theorem Invariant.accept_confirms (h : Invariant tm qs s) {P : N → Prop} {i : ℕ}
    (hwon : s.winner (s.term w) ≠ none) (ho : Own tm s (s.term w) i)
    (hs : Secure tm s P (s.term w) i) (hin : i < n)
    (hagree : ∀ i, s.base w ≤ i → i < n → l[i]? = (s.leaderLog (s.term w))[i]?)
    (hlen : l = s.log w ∨ l.length = n)
    (hkeep : l.take (s.commit w) = (s.log w).take (s.commit w)) :
    (s.stale ∧ upTo s (s.term w) i <+: s.chosen) ∨ Holds tm s l (s.term w) i := by
  have hup := ho.upTo_length
  have hbase := (h.logs w).base_le
  have hch := h.commit_le_chosen w
  have hcases : upTo s (s.term w) i <+: s.chosen ∨
      (s.chosen <+: upTo s (s.term w) i ∧ s.base w ≤ i) := by
    refine (h.chosen_comparable ho hs).elim Or.inl fun hcmp => ?_
    by_cases hb : s.base w ≤ i
    · exact Or.inr ⟨hcmp, hb⟩
    · exact Or.inl (hcmp.eq_of_length_le (by omega) ▸ List.prefix_refl _)
  obtain ⟨x, hx, hxt⟩ := ho
  rcases hcases with hcmp | ⟨hcmp, hb⟩
  · by_cases hf : s.stale
    · exact Or.inl ⟨hf, hcmp⟩
    · have htake := h.accept_fresh hf hwon hagree hkeep
      have hli : l[i]? = some x := by rw [getElem?_of_take_eq htake hin, hx]
      refine Or.inr ⟨?_, fun p e hip he => ?_⟩
      · rw [upTo, ← take_prefix_of_take_eq htake (by omega : i + 1 ≤ n)]
        exact List.take_prefix _ _
      · exact hxt ▸ h.le_of_match hli hip.le (h.accept_match hf htake hlen he)
  · -- the sealed part of the log is chosen, so the leader's log has it as well
    right
    have hsealed : ∀ j, j < s.base w → l[j]? = (s.leaderLog (s.term w))[j]? := by
      intro j hj
      have hy : s.chosen[j]? = some s.chosen[j] := List.getElem?_eq_getElem (by omega)
      rw [getElem?_of_take_eq hkeep (by omega),
        getElem?_of_take_eq (h.take_commit w le_rfl) (by omega), hy,
        getElem?_of_isPrefix (hcmp.trans (upTo_isPrefix _ _)) hy]
    have hall : l.take (i + 1) = upTo s (s.term w) i := by
      apply take_congr
      intro j hj
      by_cases hbj : s.base w ≤ j
      · exact hagree j hbj (by omega)
      · exact hsealed j (by omega)
    have hli : l[i]? = some x := by rw [getElem?_of_take_eq hall (Nat.lt_succ_self i), hx]
    refine ⟨hall ▸ List.take_prefix _ _, fun p e hip he => ?_⟩
    have hm := (h.accept_nodeLog hagree hlen hkeep).entry_match (by omega) he i hb hip.le
    rw [hli] at hm
    exact hxt ▸ h.leaders.entry_term hm.symm

end Accept

variable {w : N} {n : ℕ}

theorem getElem?_reseated {l chosen : List E} (hn : n ≤ chosen.length) {i : ℕ} :
    (i < n → (reseated tm l chosen n)[i]? = chosen[i]?) ∧
    (n ≤ i → SameTermAt tm l chosen (n - 1) → (reseated tm l chosen n)[i]? = l[i]?) ∧
    (n ≤ i → ¬ SameTermAt tm l chosen (n - 1) → (reseated tm l chosen n)[i]? = none) := by
  have hlen : (chosen.take n).length = n := by simp [hn]
  refine ⟨fun hi => ?_, fun hi hs => ?_, fun hi hs => ?_⟩
  · rw [reseated, List.getElem?_append_left (by omega), List.getElem?_take_of_lt hi]
  · rw [reseated, if_pos hs, List.getElem?_append_right (by omega), List.getElem?_drop, hlen]
    congr 1
    omega
  · rw [reseated, if_neg hs, List.append_nil, List.getElem?_eq_none (by omega)]

theorem reseated_take {l chosen : List E} (hn : n ≤ chosen.length) :
    (reseated tm l chosen n).take n = chosen.take n :=
  take_congr fun _ hi => (getElem?_reseated hn).1 hi

theorem reseated_eq_self {l chosen : List E} (hpos : 0 < n) (hn : n ≤ chosen.length)
    (heq : l.take n = chosen.take n) : reseated tm l chosen n = l := by
  have hx : chosen[n - 1]? = some (chosen[n - 1]) := List.getElem?_eq_getElem (by omega)
  have hsame : SameTermAt tm l chosen (n - 1) :=
    ⟨_, _, (getElem?_of_take_eq heq (by omega)).trans hx, hx, rfl⟩
  rw [reseated, if_pos hsame, ← heq, List.take_append_drop]

theorem Invariant.install_holds (h : Invariant tm qs s) {T i : ℕ} (ho : Own tm s T i)
    (hpos : 0 < n) (hn : n ≤ s.chosen.length)
    (hcmp : upTo s T i <+: s.chosen ∨ s.chosen <+: upTo s T i)
    (hh : Holds tm s (s.log w) T i) : Holds tm s (reseated tm (s.log w) s.chosen n) T i := by
  have hlen := ho.upTo_length
  by_cases hin : i < n
  · have hp : upTo s T i <+: s.chosen :=
      hcmp.elim id fun hp => hp.eq_of_length_le (by omega) ▸ List.prefix_refl _
    obtain ⟨x, hx, hxt⟩ := ho.upTo_entry
    refine ⟨?_, fun p e hip he => ?_⟩
    · exact (prefix_take_of_le hp (by omega)).trans (List.prefix_append _ _)
    · by_cases hpn : p < n
      · rw [(getElem?_reseated hn).1 hpn] at he
        exact hxt ▸ h.le_of_match (getElem?_of_isPrefix hp hx) hip.le (h.chosen_match he)
      · by_cases hs : SameTermAt tm (s.log w) s.chosen (n - 1)
        · rw [(getElem?_reseated hn).2.1 (by omega) hs] at he
          exact hh.2 p e hip he
        · rw [(getElem?_reseated hn).2.2 (by omega) hs] at he
          cases he
  · have heq : (s.log w).take n = s.chosen.take n := by
      rw [take_of_isPrefix hh.1 (by omega)]
      rcases hcmp with hp | hp
      · exact (take_of_isPrefix hp (by omega)).symm
      · exact take_of_isPrefix hp hn
    rw [reseated_eq_self hpos hn heq]
    exact hh

theorem Invariant.take_of_sameTerm (h : Invariant tm qs s) (hf : ¬ s.stale) (hpos : 0 < n)
    (hs : SameTermAt tm (s.log w) s.chosen (n - 1)) : (s.log w).take n = s.chosen.take n := by
  obtain ⟨x, y, hx, hy, hxy⟩ := hs
  have hmx := h.fresh_match hf hx
  have hmy := h.chosen_match hy
  rw [Nat.sub_add_cancel hpos] at hmx hmy
  rw [hmx, hmy, hxy]

theorem Invariant.install_match (h : Invariant tm qs s) (hf : ¬ s.stale) (hpos : 0 < n)
    (hn : n ≤ s.chosen.length) {i : ℕ} {e : E}
    (he : (reseated tm (s.log w) s.chosen n)[i]? = some e) :
    (reseated tm (s.log w) s.chosen n).take (i + 1) = (s.leaderLog (tm e)).take (i + 1) := by
  by_cases hi : i < n
  · rw [(getElem?_reseated hn).1 hi] at he
    rw [take_prefix_of_take_eq (reseated_take hn) (by omega)]
    exact h.chosen_match he
  by_cases hs : SameTermAt tm (s.log w) s.chosen (n - 1)
  · rw [reseated_eq_self hpos hn (h.take_of_sameTerm hf hpos hs)] at he ⊢
    exact h.fresh_match hf he
  · rw [(getElem?_reseated hn).2.2 (by omega) hs] at he
    cases he

theorem Invariant.install_nodeLog (h : Invariant tm qs s) (hcommit : s.commit w < n)
    (hn : n ≤ s.chosen.length) :
    NodeLog tm s.leaderLog s.chosen n n (reseated tm (s.log w) s.chosen n) := by
  have hl := h.logs w
  have htake : (reseated tm (s.log w) s.chosen n).take n = s.chosen.take n := reseated_take hn
  refine ⟨?_, le_rfl, ?_, ?_⟩
  · intro i e hi he j hj hji
    by_cases hs : SameTermAt tm (s.log w) s.chosen (n - 1)
    · rw [(getElem?_reseated hn).2.1 hi hs] at he
      rw [(getElem?_reseated hn).2.1 hj hs]
      have := hl.base_le
      exact hl.entry_match (by omega) he j (by omega) hji
    · rw [(getElem?_reseated hn).2.2 hi hs] at he
      cases he
  · have := congrArg List.length htake
    simp only [List.length_take] at this
    omega
  · rw [htake]
    exact List.take_prefix _ _

variable [DecidableEq N]

section Accepted

variable {l : List E}

theorem accepted_log_self : (s.accepted w n l).log w = l := update_self ..

theorem accepted_log_of_ne (v : N) (hv : v ≠ w) : (s.accepted w n l).log v = s.log v :=
  update_of_ne hv ..

theorem accepted_confirmed (v : N) (T : ℕ) : (s.accepted w n l).confirmed v T =
    if v = w ∧ T = s.term w then max (s.confirmed w (s.term w)) n else s.confirmed v T :=
  update₂_apply _ _ _ _ _ _

theorem le_accepted_confirmed (v : N) (T : ℕ) :
    s.confirmed v T ≤ (s.accepted w n l).confirmed v T := by
  rw [accepted_confirmed]
  split
  · rename_i heq
    rw [heq.1, heq.2]
    exact le_max_left _ _
  · exact le_rfl

theorem Secure.accepted (h : Invariant tm qs s) {P : N → Prop} {T i start : ℕ}
    (hs : Secure tm s P T i) (ho : Own tm s T i) (hwon : s.winner (s.term w) ≠ none)
    (hg : Grafted tm (s.leaderLog (s.term w)) start n (s.log w) l)
    (hT : P w → T ≤ s.term w) : Secure tm (s.accepted w n l) P T i := by
  refine hs.replace (w := w) (fun hw hh => ?_) accepted_log_of_ne rfl rfl rfl rfl rfl
  rw [accepted_log_self]
  refine h.accept_holds ho ?_ hg hh
  rcases Nat.lt_or_eq_of_le (hT hw) with hlt | rfl
  · exact (hs.inherits _ hlt hwon).trans (h.inherited_isPrefix _)
  · exact upTo_isPrefix _ _

theorem Secure.confirmed (h : Invariant tm qs s) {i : ℕ}
    (hs : Secure tm (s.accepted w n l) (confirmers s (s.term w) i) (s.term w) i)
    (hh : Holds tm (s.accepted w n l) l (s.term w) i) :
    Secure tm (s.accepted w n l) (confirmers (s.accepted w n l) (s.term w) i) (s.term w) i := by
  have honly : ∀ v, confirmers (s.accepted w n l) (s.term w) i v →
      v = w ∨ confirmers s (s.term w) i v := by
    intro v hv
    rw [confirmers, accepted_confirmed] at hv
    by_cases hvw : v = w
    · exact Or.inl hvw
    · rw [if_neg (fun heq => hvw heq.1)] at hv
      exact Or.inr hv
  refine ⟨fun v hv => ?_, fun v d U r hv hU hvd hr => ?_, hs.inherits⟩
  · rcases honly v hv with rfl | hv
    · rw [accepted_log_self]
      exact hh
    · exact hs.held v hv
  · rcases honly v hv with rfl | hv
    · have := h.votes.vote_term hvd
      omega
    · exact hs.votes v d U r hv hU hvd hr

theorem accepted_confirmers {T i : ℕ} (hold : ¬(T = s.term w ∧ i < n)) :
    confirmers (s.accepted w n l) T i = confirmers s T i := by
  funext v
  rw [confirmers, confirmers, accepted_confirmed]
  split
  · rename_i heq
    rw [heq.1, heq.2, lt_max_iff, or_iff_left]
    exact fun hin => hold ⟨heq.2, hin⟩
  · rfl

end Accepted

theorem accept_invariant (h : Invariant tm qs s) {prev : ℕ} {l : List E}
    (hrole : s.role w = .follower) (hwon : s.winner (s.term w) ≠ none) (hpn : prev ≤ n)
    (hn : n ≤ (s.leaderLog (s.term w)).length)
    (hprev : prev < s.base w ∨ prev ≤ (s.log w).length ∧
      termBefore tm (s.log w) prev = termBefore tm (s.leaderLog (s.term w)) prev)
    (hg : Grafted tm (s.leaderLog (s.term w)) (max prev (s.base w)) n (s.log w) l)
    (hkeep : l.take (s.commit w) = (s.log w).take (s.commit w)) :
    Invariant tm qs (s.accepted w n l) := by
  have hagree := h.accept_agree hprev hpn hn hg
  have hlen := hg.cases_length hn
  constructor
  case votes => exact h.votes
  case wins => exact h.wins
  case roles =>
    intro d
    by_cases hd : d = w
    · subst hd
      exact RoleLog.of_follower hrole
    · exact (h.roles d).of_same rfl rfl (accepted_log_of_ne d hd) rfl rfl rfl rfl
        (by rw [accepted_confirmed, if_neg (fun heq => hd heq.1)]) (fun _ hm => hm)
  case leaders => exact h.leaders
  case logs =>
    intro v
    by_cases hv : v = w
    · subst hv
      rw [accepted_log_self]
      exact h.accept_nodeLog hagree hlen hkeep
    · rw [accepted_log_of_ne v hv]
      exact h.logs v
  case chosen =>
    exact h.chosen.mono (fun _ => List.prefix_refl _) rfl rfl
      fun _ _ => le_accepted_confirmed _ _
  case secured =>
    intro cm hcm
    refine (h.secured hcm).accepted h (h.chosen.own hcm) hwon hg fun hw => ?_
    exact h.confirmed_term (Nat.zero_lt_of_lt (h.chosen.confirmed hcm hw))
  case confirmed_term =>
    intro v T hpos
    rw [accepted_confirmed] at hpos
    split at hpos
    · rename_i heq
      rw [heq.1, heq.2]
      rfl
    · exact h.confirmed_term hpos
  case confirmed_length =>
    intro v T
    rw [accepted_confirmed]
    split
    · rename_i heq
      rw [heq.2]
      exact max_le (h.confirmed_length w _) hn
    · exact h.confirmed_length v T
  case committable =>
    intro T i ho hc
    have hc' : Committable qs s T i := by
      refine hc.of_le fun v hv => ?_
      by_cases hvw : v = w ∧ T = s.term w
      · exact Or.inr (by rw [hvw.1, hvw.2])
      · rwa [accepted_confirmed, if_neg hvw] at hv
    rcases h.committable ho hc' with hst | hs
    · exact Or.inl hst
    by_cases hnew : T = s.term w ∧ i < n
    · obtain ⟨rfl, hin⟩ := hnew
      refine (h.accept_confirms hwon ho hs hin hagree hlen hkeep).imp id fun hh => ?_
      exact (hs.accepted h ho hwon hg fun _ => le_rfl).confirmed h hh
    · rw [accepted_confirmers hnew]
      refine Or.inr (hs.accepted h ho hwon hg fun hw => ?_)
      exact h.confirmed_term (Nat.zero_lt_of_lt hw)
  case fresh_match =>
    intro hf v i e he
    by_cases hv : v = w
    · subst hv
      rw [accepted_log_self] at he ⊢
      exact h.accept_match hf (h.accept_fresh hf hwon hagree hkeep) hlen he
    · rw [accepted_log_of_ne v hv] at he ⊢
      exact h.fresh_match hf he
  case fresh_cover => exact h.fresh_cover

theorem install_invariant (h : Invariant tm qs s) (hrole : s.role w = .follower)
    (hcommit : s.commit w < n) (hn : n ≤ s.chosen.length) :
    Invariant tm qs (s.installed tm w n) := by
  have hpos : 0 < n := by omega
  have hself : (s.installed tm w n).log w = reseated tm (s.log w) s.chosen n := by
    simp [State.installed]
  have hother : ∀ v, v ≠ w → (s.installed tm w n).log v = s.log v :=
    fun v hv => by simp [State.installed, hv]
  have hcommit' : ∀ v, v ≠ w → (s.installed tm w n).commit v = s.commit v :=
    fun v hv => by simp [State.installed, hv]
  have hsecure : ∀ {P : N → Prop} {T i : ℕ}, Own tm s T i → Secure tm s P T i →
      Secure tm (s.installed tm w n) P T i := by
    intro P T i ho hs
    refine hs.replace (w := w) (fun _ hh => ?_) hother rfl rfl rfl rfl rfl
    rw [hself]
    exact h.install_holds ho hpos hn (h.chosen_comparable ho hs) hh
  constructor
  case votes => exact h.votes
  case wins => exact h.wins
  case roles =>
    intro d
    by_cases hd : d = w
    · subst hd
      exact RoleLog.of_follower hrole
    · exact (h.roles d).of_same rfl rfl (hother d hd) (hcommit' d hd) rfl rfl rfl rfl
        (fun _ hm => hm)
  case leaders => exact h.leaders
  case logs =>
    intro v
    by_cases hv : v = w
    · subst hv
      simp only [State.installed, update_self]
      exact h.install_nodeLog hcommit hn
    · simp only [State.installed, update_of_ne hv]
      exact h.logs v
  case chosen => exact h.chosen.mono (fun _ => List.prefix_refl _) rfl rfl fun _ _ => le_rfl
  case secured => exact fun hcm => hsecure (h.chosen.own hcm) (h.secured hcm)
  case confirmed_term => exact h.confirmed_term
  case confirmed_length => exact h.confirmed_length
  case committable =>
    exact fun ho hc => (h.committable ho hc).imp (fun hst => ⟨Or.inl hst.1, hst.2⟩) (hsecure ho)
  case fresh_match =>
    intro hf v i e he
    have hf' : ¬ s.stale := fun hs => hf (Or.inl hs)
    by_cases hv : v = w
    · subst hv
      rw [hself] at he ⊢
      exact h.install_match hf' hpos hn he
    · rw [hother v hv] at he ⊢
      exact h.fresh_match hf' he
  case fresh_cover =>
    intro hf v
    have hf' : ¬ s.stale := fun hs => hf (Or.inl hs)
    by_cases hv : v = w
    · subst hv
      simp only [State.installed, update_self]
      exact not_not.mp fun hc => hf (Or.inr hc)
    · rw [hcommit' v hv]
      exact h.fresh_cover hf' v

/-- Every move keeps the invariant. -/
theorem Step.invariant {v : N} {s' : State N E} (hs : Step tm qs v s s') (h : Invariant tm qs s) :
    Invariant tm qs s' := by
  cases hs with
  | observe _ _ t ht => exact observe_invariant h ht
  | relax _ _ c hb hc => exact relax_invariant h hb hc
  | stand _ _ => exact stand_invariant h v
  | grant _ _ c r hr hfree hup => exact grant_invariant h hr hfree hup
  | elect _ _ Q hrole hQ hv => exact elect_invariant h hrole hQ hv
  | propose _ _ e hrole he => exact propose_invariant h hrole he
  | accept _ _ prev n l hrole hwon hpn hn hprev hg hkeep =>
    exact accept_invariant h hrole hwon hpn hn hprev hg hkeep
  | learn _ _ c hrole hc hlen hagree hchosen hcover =>
    exact learn_invariant h hrole hc hlen hagree hchosen hcover
  | install _ _ n hrole hc hn => exact install_invariant h hrole hc hn
  | commitSecure _ _ i Q hrole hc hQ hconf ho hsec hcmp =>
    exact commitSecure_invariant h hrole hc hQ hconf ho hsec hcmp
  | commitCovered _ _ i hrole hc hlen hst hch =>
    exact commitCovered_invariant h hrole hc hlen hst hch
  | compact _ _ n hb hn => exact compact_invariant h hb hn

end ReplicatedLog
