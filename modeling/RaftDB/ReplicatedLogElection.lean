import RaftDB.ReplicatedLogSteps

/-! # Elections and proposals

The two moves that extend a leader log. A winner's log is a prefix of the leader log of
its last entry's term: a candidate whose sealed prefix did not fit its later entries
would have lost the quorum behind the commit of that prefix. -/
namespace ReplicatedLog

open MajorityQuorum LogPrefix Function

variable {N E : Type*} {tm : E → ℕ} {qs : QuorumSystem N} {s s' : State N E}

theorem Own.mono {T i : ℕ} (h : Own tm s T i) (hLL : s.leaderLog T <+: s'.leaderLog T) :
    Own tm s' T i := by
  obtain ⟨e, he, ht⟩ := h
  exact ⟨e, getElem?_of_isPrefix hLL he, ht⟩

theorem Own.upTo_eq {T i : ℕ} (h : Own tm s T i) (hLL : s.leaderLog T <+: s'.leaderLog T) :
    upTo s' T i = upTo s T i := by
  obtain ⟨e, he, _⟩ := h
  exact take_of_isPrefix hLL (lt_of_getElem? he)

theorem NodeLog.mono {LL LL' : ℕ → List E} {chosen log : List E} {base commit : ℕ}
    (h : NodeLog tm LL chosen base commit log) (hLL : ∀ T, LL T <+: LL' T) :
    NodeLog tm LL' chosen base commit log := by
  refine ⟨fun {i e} hi he j hj hji => ?_, h.base_le, h.commit_le, h.commit_chosen⟩
  obtain ⟨x, hx⟩ : ∃ x, log[j]? = some x :=
    ⟨_, List.getElem?_eq_getElem (hji.trans_lt (lt_of_getElem? he))⟩
  have := h.entry_match hi he j hj hji
  rw [hx] at this
  rw [hx, getElem?_of_isPrefix (hLL (tm e)) this.symm]

theorem Chosen.mono (h : Chosen tm qs s) (hLL : ∀ T, s.leaderLog T <+: s'.leaderLog T)
    (hcm : s'.commits = s.commits) (hch : s'.chosen = s.chosen)
    (hconf : ∀ {cm w}, cm ∈ s.commits → w ∈ cm.quorum →
      s.confirmed w cm.term ≤ s'.confirmed w cm.term) : Chosen tm qs s' := by
  refine ⟨?_, ?_, ?_, ?_, ?_⟩ <;> rw [hcm]
  · exact fun hm => (h.own hm).mono (hLL _)
  · exact h.is_quorum
  · exact fun hm hw => (h.confirmed hm hw).trans_le (hconf hm hw)
  · intro cm hm
    rw [(h.own hm).upTo_eq (hLL _), hch]
    exact h.upTo_chosen hm
  · rw [hch]
    refine h.last.imp_right ?_
    rintro ⟨cm, hm, heq⟩
    exact ⟨cm, hm, by rw [(h.own hm).upTo_eq (hLL _)]; exact heq⟩

theorem match_mono {LL LL' : ℕ → List E} {l : List E} {i : ℕ} {e : E} (he : l[i]? = some e)
    (hm : l.take (i + 1) = (LL (tm e)).take (i + 1)) (hLL : LL (tm e) <+: LL' (tm e)) :
    l.take (i + 1) = (LL' (tm e)).take (i + 1) := by
  have hi : (LL (tm e))[i]? = some e := by
    rw [← getElem?_of_take_eq hm (Nat.lt_succ_self i), he]
  rw [take_of_isPrefix hLL (lt_of_getElem? hi), hm]

theorem LeaderLogs.elect [DecidableEq N] {winner : ℕ → Option N} {inherited LL : ℕ → List E}
    (h : LeaderLogs tm winner inherited LL) {U : ℕ} (hU : winner U = none) (c : N)
    {log : List E} (hlt : ∀ e ∈ log, tm e < U)
    (hm : ∀ (i : ℕ) e, log[i]? = some e → log.take (i + 1) = (LL (tm e)).take (i + 1)) :
    LeaderLogs tm (update winner U (some c)) (update inherited U log) (update LL U log) := by
  have hLL : ∀ T, LL T <+: update LL U log T := by
    intro T
    by_cases hT : T = U
    · rw [hT, h.unwon hU]
      exact List.nil_prefix
    · rw [update_of_ne hT]
  constructor
  case unwon =>
    intro V hV
    by_cases hVU : V = U
    · simp [hVU] at hV
    · rw [update_of_ne hVU] at hV ⊢
      exact h.unwon hV
  case inherited_term =>
    intro V e he
    by_cases hVU : V = U
    · subst hVU
      rw [update_self] at he
      exact hlt e he
    · rw [update_of_ne hVU] at he
      exact h.inherited_term he
  case split =>
    intro V
    by_cases hVU : V = U
    · subst hVU
      exact ⟨[], by simp, by simp⟩
    · rw [update_of_ne hVU, update_of_ne hVU]
      exact h.split V
  case entry_term =>
    intro V i e he
    by_cases hVU : V = U
    · subst hVU
      rw [update_self] at he
      exact (hlt e (List.mem_of_getElem? he)).le
    · rw [update_of_ne hVU] at he
      exact h.entry_term he
  case entry_match =>
    intro V i e he
    by_cases hVU : V = U
    · subst hVU
      rw [update_self] at he ⊢
      exact match_mono he (hm i e he) (hLL _)
    · rw [update_of_ne hVU] at he ⊢
      exact match_mono he (h.entry_match he) (hLL _)

theorem LeaderLogs.propose {winner : ℕ → Option N} {inherited LL : ℕ → List E}
    (h : LeaderLogs tm winner inherited LL) {U : ℕ} (hU : winner U ≠ none) {x : E}
    (hx : tm x = U) : LeaderLogs tm winner inherited (update LL U (LL U ++ [x])) := by
  have hLL : ∀ T, LL T <+: update LL U (LL U ++ [x]) T := by
    intro T
    by_cases hT : T = U
    · rw [hT, update_self]
      exact List.prefix_append _ _
    · rw [update_of_ne hT]
  constructor
  case unwon =>
    intro V hV
    have hVU : V ≠ U := by rintro rfl; exact hU hV
    rw [update_of_ne hVU]
    exact h.unwon hV
  case inherited_term => exact h.inherited_term
  case split =>
    intro V
    by_cases hVU : V = U
    · subst hVU
      obtain ⟨own, heq, hown⟩ := h.split V
      refine ⟨own ++ [x], by rw [update_self, heq, List.append_assoc], ?_⟩
      intro e he
      rcases List.mem_append.mp he with he | he
      · exact hown e he
      · rw [List.mem_singleton.mp he]
        exact hx
    · rw [update_of_ne hVU]
      exact h.split V
  case entry_term =>
    intro V i e he
    by_cases hVU : V = U
    · subst hVU
      rw [update_self] at he
      rcases getElem?_concat he with he | ⟨_, rfl⟩
      · exact h.entry_term he
      · exact hx.le
    · rw [update_of_ne hVU] at he
      exact h.entry_term he
  case entry_match =>
    intro V i e he
    by_cases hVU : V = U
    · subst hVU
      rw [update_self] at he ⊢
      rcases getElem?_concat he with he' | ⟨_, rfl⟩
      · rw [List.take_append_of_le_length (lt_of_getElem? he')]
        exact match_mono he' (h.entry_match he') (hLL _)
      · rw [hx, update_self]
    · rw [update_of_ne hVU] at he ⊢
      exact match_mono he (h.entry_match he) (hLL _)

section Winner

variable {c : N} {Q : Finset N}

theorem Invariant.elect_unwon (h : Invariant tm qs s) (hrole : s.role c = .candidate)
    (hQ : qs.IsQuorum Q) (hv : ∀ w ∈ Q, s.voted w (s.term c) = some c) :
    s.winner (s.term c) = none := by
  by_contra hne
  obtain ⟨d, hd⟩ := Option.ne_none_iff_exists'.mp hne
  obtain ⟨hQ', hv'⟩ := h.wins hd
  obtain ⟨w, hw, hw'⟩ := qs.meets hQ hQ'
  have hcd : c = d := Option.some.inj ((hv w hw).symm.trans (hv' w hw'))
  exact ((h.roles c).candidate hrole).1 (hcd ▸ hd)

/-- A winning candidacy was timely: nobody had won a later term when it stood. -/
theorem Invariant.elect_timely (h : Invariant tm qs s) (hrole : s.role c = .candidate)
    (hQ : qs.IsQuorum Q) (hv : ∀ w ∈ Q, s.voted w (s.term c) = some c) :
    ∃ r, s.candidacy c (s.term c) = some r ∧ r.log = s.log c ∧ r.timely ∧
      CoveredBy s (· < s.term c) (s.commit c) := by
  obtain ⟨_, r, hr, hlog, hcov⟩ := (h.roles c).candidate hrole
  by_cases ht : r.timely
  · exact ⟨r, hr, hlog, ht, hcov ht⟩
  · obtain ⟨Q', hQ', hlost⟩ := h.votes.late_loses hr ht
    obtain ⟨w, hw, hw'⟩ := qs.meets hQ hQ'
    exact absurd (hv w hw) (hlost w hw').1

theorem Invariant.elect_last (h : Invariant tm qs s) (hrole : s.role c = .candidate)
    (hQ : qs.IsQuorum Q) (hv : ∀ w ∈ Q, s.voted w (s.term c) = some c) {e : E}
    (he : (s.log c)[(s.log c).length - 1]? = some e) :
    s.log c = (s.leaderLog (tm e)).take (s.log c).length := by
  obtain ⟨r, hr, hlog, _, hcov⟩ := h.elect_timely hrole hQ hv
  have hl := h.logs c
  have hm := lt_of_getElem? he
  rw [← List.take_length (l := s.log c)]
  simp only [List.length_take, Nat.min_self]
  by_cases hb : s.base c ≤ (s.log c).length - 1
  · -- below the base the log is chosen, and the commit that chose it is in the leader log
    have hbase : s.chosen.take (s.base c) = (s.leaderLog (tm e)).take (s.base c) := by
      rcases hcov with hz | ⟨cm, hcm, hlt, hle⟩
      · have := hl.base_le
        have hz' : s.base c = 0 := by omega
        simp [hz']
      · obtain ⟨w, hw, hw'⟩ := qs.meets (h.chosen.is_quorum hcm) hQ
        have hbeat := (h.secured hcm).votes w c _ r hw hlt (hv w hw') hr
        rw [hlog, Beats, lastTerm_eq he] at hbeat
        have hin : cm.term ≤ tm e := by rcases hbeat with hb | ⟨hb, _⟩ <;> omega
        have := hl.base_le
        exact h.covered_take (h.log_term_won he)
          (Or.inr ⟨cm, hcm, hin, by omega⟩)
    apply take_congr
    intro j hj
    by_cases hbj : s.base c ≤ j
    · exact hl.entry_match hb he j hbj (by omega)
    · rw [getElem?_of_take_eq (h.take_commit c hl.base_le) (by omega)]
      exact getElem?_of_take_eq hbase (by omega)
  · have hcm : (s.log c).length ≤ s.commit c := by have := hl.base_le; omega
    have htake := h.take_commit c hcm
    have hce : s.chosen[(s.log c).length - 1]? = some e := by
      rw [← getElem?_of_take_eq htake (by omega), he]
    have := h.chosen_match hce
    rw [Nat.sub_add_cancel (by omega)] at this
    rw [htake, this]

theorem Invariant.elect_match (h : Invariant tm qs s) (hrole : s.role c = .candidate)
    (hQ : qs.IsQuorum Q) (hv : ∀ w ∈ Q, s.voted w (s.term c) = some c) {i : ℕ} {e : E}
    (he : (s.log c)[i]? = some e) :
    (s.log c).take (i + 1) = (s.leaderLog (tm e)).take (i + 1) := by
  have hi := lt_of_getElem? he
  obtain ⟨x, hx⟩ := exists_last (l := s.log c) (by intro hn; simp [hn] at hi)
  have hlast := h.elect_last hrole hQ hv hx
  have hLe : (s.leaderLog (tm x))[i]? = some e := by
    rw [hlast] at he
    exact getElem?_of_take he
  rw [hlast, List.take_take, Nat.min_eq_left (by omega)]
  exact h.leaders.entry_match hLe

end Winner

variable [DecidableEq N]

section Elected

variable {c : N} {Q : Finset N}

theorem Invariant.elected_leaderLog (h : Invariant tm qs s) (hun : s.winner (s.term c) = none)
    (T : ℕ) : s.leaderLog T <+: (s.elected c Q).leaderLog T := by
  change s.leaderLog T <+: update s.leaderLog (s.term c) (s.log c) T
  by_cases hT : T = s.term c
  · rw [hT, h.leaders.unwon hun]
    exact List.nil_prefix
  · rw [update_of_ne hT]

theorem elected_confirmed_of_ne {T : ℕ} (hT : T ≠ s.term c) (w : N) :
    (s.elected c Q).confirmed w T = s.confirmed w T := by
  dsimp only [State.elected]
  rw [update₂_apply, if_neg fun heq => hT heq.2]

/-- Securing survives when an elector was among the nodes that hold the prefix. -/
theorem Secure.elected (h : Invariant tm qs s) (hrole : s.role c = .candidate)
    (hQ : qs.IsQuorum Q) (hv : ∀ w ∈ Q, s.voted w (s.term c) = some c) {P : N → Prop}
    {T i : ℕ} (hs : Secure tm s P T i) (ho : Own tm s T i)
    (hmeet : T < s.term c → ∃ w ∈ Q, P w) : Secure tm (s.elected c Q) P T i := by
  obtain ⟨r, hr, hlog, _, _⟩ := h.elect_timely hrole hQ hv
  have hup : upTo (s.elected c Q) T i = upTo s T i :=
    ho.upTo_eq (h.elected_leaderLog (h.elect_unwon hrole hQ hv) T)
  refine ⟨?_, hs.votes, ?_⟩
  · intro w hw
    refine ⟨?_, (hs.held w hw).2⟩
    rw [hup]
    exact (hs.held w hw).1
  · intro U hTU hU
    rw [hup]
    dsimp only [State.elected] at hU ⊢
    by_cases hUc : U = s.term c
    · subst hUc
      rw [update_self]
      obtain ⟨w, hwQ, hw⟩ := hmeet hTU
      have hb := hs.votes w c _ r hw hTU (hv w hwQ) hr
      rw [hlog] at hb
      exact h.beats_isPrefix ho hb (fun _ _ he => h.elect_match hrole hQ hv he) hs.inherits
    · rw [update_of_ne hUc] at hU ⊢
      exact hs.inherits U hTU hU

theorem Invariant.elected_role (h : Invariant tm qs s) (hun : s.winner (s.term c) = none)
    (d : N) : RoleLog (s.elected c Q) d := by
  by_cases hd : d = c
  · subst hd
    refine ⟨fun hcand => by simp [State.elected] at hcand, fun _ => ?_⟩
    simp [State.elected]
  by_cases hterms : s.term d = s.term c
  · refine ⟨fun hcand => ?_, fun hlead => ?_⟩
    · obtain ⟨_, r, hr⟩ := (h.roles d).candidate (by simpa [State.elected, hd] using hcand)
      refine ⟨?_, r, hr⟩
      simp [State.elected, hterms, Ne.symm hd]
    · obtain ⟨hw, _⟩ := (h.roles d).leader (by simpa [State.elected, hd] using hlead)
      simp [hterms, hun] at hw
  · exact (h.roles d).of_same (by simp [State.elected, hd]) rfl rfl rfl rfl
      (by simp [State.elected, hterms]) (by simp [State.elected, hterms])
      (by simp [State.elected, hd]) (fun _ hm => hm)

theorem Own.of_elected {T i : ℕ} (ho : Own tm (s.elected c Q) T i)
    (hlt : ∀ e ∈ s.log c, tm e < s.term c) : T ≠ s.term c ∧ Own tm s T i := by
  obtain ⟨e, he, ht⟩ := ho
  dsimp only [State.elected] at he
  by_cases hT : T = s.term c
  · subst hT
    rw [update_self] at he
    exact absurd ht (hlt e (List.mem_of_getElem? he)).ne
  · rw [update_of_ne hT] at he
    exact ⟨hT, e, he, ht⟩

theorem Invariant.elected_committable (h : Invariant tm qs s) (hrole : s.role c = .candidate)
    (hQ : qs.IsQuorum Q) (hv : ∀ w ∈ Q, s.voted w (s.term c) = some c) {T i : ℕ}
    (hT : T ≠ s.term c) (ho : Own tm s T i) (hc : Committable qs (s.elected c Q) T i) :
    (s.stale ∧ upTo (s.elected c Q) T i <+: s.chosen) ∨
      Secure tm (s.elected c Q) (confirmers (s.elected c Q) T i) T i := by
  have hc' : Committable qs s T i := hc.of_le fun w hw => by
    rwa [elected_confirmed_of_ne hT] at hw
  rcases h.committable ho hc' with hst | hs
  · left
    rw [ho.upTo_eq (h.elected_leaderLog (h.elect_unwon hrole hQ hv) T)]
    exact hst
  · right
    have hsame : confirmers (s.elected c Q) T i = confirmers s T i :=
      funext fun w => congrArg (i < ·) (elected_confirmed_of_ne hT w)
    rw [hsame]
    refine hs.elected h hrole hQ hv ho fun hTc => ?_
    obtain ⟨Q', hQ', hw'⟩ := hc'
    obtain ⟨w, hw, hwQ'⟩ := qs.meets hQ hQ'
    have := h.votes.vote_term (hv w hw)
    exact ⟨w, hw, (hw' w hwQ').resolve_right (by omega)⟩

end Elected

theorem elect_invariant (h : Invariant tm qs s) {c : N} {Q : Finset N}
    (hrole : s.role c = .candidate) (hQ : qs.IsQuorum Q)
    (hv : ∀ w ∈ Q, s.voted w (s.term c) = some c) :
    Invariant tm qs (s.elected c Q) := by
  have hun := h.elect_unwon hrole hQ hv
  obtain ⟨r, hr, hlog, htimely, _⟩ := h.elect_timely hrole hQ hv
  have hlt : ∀ e ∈ s.log c, tm e < s.term c := hlog ▸ h.votes.timely_terms hr htimely
  have hLL := h.elected_leaderLog hun (Q := Q)
  constructor
  case votes => exact h.votes
  case wins =>
    intro U d hU
    dsimp only [State.elected] at hU ⊢
    by_cases hUc : U = s.term c
    · subst hUc
      rw [update_self] at hU ⊢
      cases hU
      exact ⟨hQ, hv⟩
    · rw [update_of_ne hUc] at hU ⊢
      exact h.wins hU
  case roles => exact h.elected_role hun
  case leaders => exact h.leaders.elect hun c hlt fun _ _ he => h.elect_match hrole hQ hv he
  case logs => exact fun w => (h.logs w).mono hLL
  case chosen =>
    refine h.chosen.mono hLL rfl rfl fun {cm w} hcm _ => ?_
    rw [elected_confirmed_of_ne]
    obtain ⟨e, he, _⟩ := h.chosen.own hcm
    exact fun heq => h.won_of_entry he (heq ▸ hun)
  case secured =>
    intro cm hcm
    refine (h.secured hcm).elected h hrole hQ hv (h.chosen.own hcm) fun _ => ?_
    obtain ⟨w, hw, hw'⟩ := qs.meets hQ (h.chosen.is_quorum hcm)
    exact ⟨w, hw, hw'⟩
  case confirmed_term =>
    intro w T hpos
    dsimp only [State.elected] at hpos ⊢
    rw [update₂_apply] at hpos
    split at hpos
    · rename_i heq
      rw [heq.1, heq.2]
    · exact h.confirmed_term hpos
  case confirmed_length =>
    intro w T
    by_cases hT : T = s.term c
    · subst hT
      dsimp only [State.elected]
      rw [update₂_apply, update_self]
      split
      · exact le_rfl
      · have hold := h.confirmed_length w (s.term c)
        rw [h.leaders.unwon hun] at hold
        exact hold.trans (Nat.zero_le _)
    · rw [elected_confirmed_of_ne hT]
      exact (h.confirmed_length w T).trans (hLL T).length_le
  case committable =>
    intro T i ho hc
    obtain ⟨hT, ho⟩ := ho.of_elected hlt
    exact h.elected_committable hrole hQ hv hT ho hc
  case fresh_match =>
    intro hf w i e he
    exact match_mono he (h.fresh_match hf he) (hLL _)
  case fresh_cover => exact h.fresh_cover

section Proposed

variable {c : N} {x : E}

theorem proposed_log_self : (s.proposed c x).log c = s.log c ++ [x] := update_self ..

theorem proposed_log_of_ne {w : N} (hw : w ≠ c) : (s.proposed c x).log w = s.log w :=
  update_of_ne hw ..

theorem proposed_leaderLog_self : (s.proposed c x).leaderLog (s.term c) = s.log c ++ [x] :=
  update_self ..

theorem proposed_leaderLog_of_ne {T : ℕ} (hT : T ≠ s.term c) :
    (s.proposed c x).leaderLog T = s.leaderLog T := update_of_ne hT ..

theorem proposed_confirmed (w : N) (T : ℕ) : (s.proposed c x).confirmed w T =
    if w = c ∧ T = s.term c then (s.log c).length + 1 else s.confirmed w T :=
  update₂_apply _ _ _ _ _ _

theorem proposed_leaderLog_isPrefix (hlog : s.log c = s.leaderLog (s.term c)) (T : ℕ) :
    s.leaderLog T <+: (s.proposed c x).leaderLog T := by
  by_cases hT : T = s.term c
  · rw [hT, proposed_leaderLog_self, hlog]
    exact List.prefix_append _ _
  · rw [proposed_leaderLog_of_ne hT]

theorem Secure.proposed {P : N → Prop} {T i : ℕ} (hs : Secure tm s P T i)
    (ho : Own tm s T i) (hlog : s.log c = s.leaderLog (s.term c)) (hx : tm x = s.term c)
    (hle : ∀ w, P w → T ≤ s.term w) : Secure tm (s.proposed c x) P T i := by
  have hup := ho.upTo_eq (proposed_leaderLog_isPrefix hlog T (x := x))
  refine ⟨?_, hs.votes, ?_⟩
  · intro w hw
    rw [Holds, hup]
    obtain ⟨hp, hlater⟩ := hs.held w hw
    by_cases hwc : w = c
    · subst hwc
      rw [proposed_log_self]
      refine ⟨hp.trans (List.prefix_append _ _), fun j e hj he => ?_⟩
      rcases getElem?_concat he with he | ⟨_, rfl⟩
      · exact hlater j e hj he
      · exact hx ▸ hle w hw
    · rw [proposed_log_of_ne hwc]
      exact ⟨hp, hlater⟩
  · rw [hup]
    exact hs.inherits

theorem Invariant.proposed_role (h : Invariant tm qs s) (hrole : s.role c = .leader) (d : N) :
    RoleLog (s.proposed c x) d := by
  obtain ⟨hwin, _, _⟩ := (h.roles c).leader hrole
  by_cases hd : d = c
  · subst hd
    refine ⟨fun hcand => absurd (hrole.symm.trans hcand) (by simp), fun _ => ⟨hwin, ?_, ?_⟩⟩
    · exact proposed_log_self.trans proposed_leaderLog_self.symm
    · refine (proposed_confirmed d (s.term d)).trans ?_
      rw [if_pos ⟨rfl, rfl⟩]
      refine Eq.trans ?_ (congrArg List.length proposed_leaderLog_self).symm
      rw [List.length_append, List.length_singleton]
  · refine ⟨fun hcand => ?_, fun hl => ?_⟩
    · obtain ⟨hw, r, hr, hrl, hcov⟩ := (h.roles d).candidate hcand
      exact ⟨hw, r, hr, hrl.trans (proposed_log_of_ne hd).symm, hcov⟩
    · obtain ⟨hw, hdl, hdc⟩ := (h.roles d).leader hl
      have hne : s.term d ≠ s.term c := by
        intro heq
        rw [heq, hwin] at hw
        exact hd (Option.some.inj hw).symm
      have hll := proposed_leaderLog_of_ne (s := s) (x := x) hne
      refine ⟨hw, ((proposed_log_of_ne hd).trans hdl).trans hll.symm, ?_⟩
      refine (proposed_confirmed d (s.term d)).trans ?_
      rw [if_neg (fun heq => hd heq.1), hdc, ← hll]
      rfl

theorem Invariant.proposed_nodeLog (h : Invariant tm qs s)
    (hlog : s.log c = s.leaderLog (s.term c)) (hx : tm x = s.term c) (w : N) :
    NodeLog tm (s.proposed c x).leaderLog s.chosen (s.base w) (s.commit w)
      ((s.proposed c x).log w) := by
  have hl := (h.logs w).mono (proposed_leaderLog_isPrefix hlog (x := x))
  by_cases hw : w = c
  · subst hw
    have hlen := hl.commit_le
    rw [proposed_log_self]
    refine ⟨?_, hl.base_le, hlen.trans (by simp), ?_⟩
    · intro i e hi he j hj hji
      rcases getElem?_concat he with he' | ⟨_, rfl⟩
      · have hjl : j < (s.log w).length := hji.trans_lt (lt_of_getElem? he')
        rw [List.getElem?_append_left hjl]
        exact hl.entry_match hi he' j hj hji
      · rw [hx, proposed_leaderLog_self]
    · rw [List.take_append_of_le_length hlen]
      exact hl.commit_chosen
  · rw [proposed_log_of_ne hw]
    exact hl

theorem Invariant.proposed_secure (h : Invariant tm qs s)
    (hlog : s.log c = s.leaderLog (s.term c))
    (hc : Committable qs (s.proposed c x) (s.term c) (s.log c).length) :
    Secure tm (s.proposed c x) (confirmers (s.proposed c x) (s.term c) (s.log c).length)
      (s.term c) (s.log c).length := by
  have honly : ∀ w, (s.log c).length < (s.proposed c x).confirmed w (s.term c) → w = c := by
    intro w hw
    by_contra hwc
    rw [proposed_confirmed, if_neg (fun heq => hwc heq.1)] at hw
    have := h.confirmed_length w (s.term c)
    rw [← hlog] at this
    omega
  have hvote : ∀ {w d U}, s.term c < U → s.voted w U = some d → w ≠ c := by
    rintro w d U hU hv rfl
    have := h.votes.vote_term hv
    omega
  refine ⟨?_, ?_, ?_⟩
  · intro w hw
    obtain rfl := honly w hw
    rw [Holds, upTo, proposed_leaderLog_self, proposed_log_self]
    refine ⟨List.take_prefix _ _, fun j e hj he => ?_⟩
    have := lt_of_getElem? he
    simp only [List.length_append, List.length_singleton] at this
    omega
  · exact fun w d U r hw hU hv _ => absurd (honly w hw) (hvote hU hv)
  · intro U hU hne
    obtain ⟨d, hd⟩ := Option.ne_none_iff_exists'.mp hne
    obtain ⟨hQ, hv⟩ := h.wins hd
    obtain ⟨Q, hQ', hw'⟩ := hc
    obtain ⟨w, hw, hwQ⟩ := qs.meets hQ hQ'
    have hle := h.votes.vote_term (hv w hw)
    rcases hw' w hwQ with hconfd | hterm
    · exact absurd (honly w hconfd) (hvote hU (hv w hw))
    · change s.term w ≤ s.term c at hterm
      omega

theorem Own.of_proposed {T i : ℕ} (ho : Own tm (s.proposed c x) T i)
    (hlog : s.log c = s.leaderLog (s.term c))
    (hold : ¬(T = s.term c ∧ i = (s.log c).length)) : Own tm s T i := by
  obtain ⟨e, he, ht⟩ := ho
  refine ⟨e, ?_, ht⟩
  by_cases hT : T = s.term c
  · subst hT
    rw [proposed_leaderLog_self] at he
    rcases getElem?_concat he with he | ⟨hi, _⟩
    · rwa [← hlog]
    · exact absurd ⟨rfl, hi⟩ hold
  · rwa [proposed_leaderLog_of_ne hT] at he

theorem Invariant.proposed_confirmers (h : Invariant tm qs s) (hrole : s.role c = .leader)
    {T i : ℕ} (ho : Own tm s T i) : confirmers (s.proposed c x) T i = confirmers s T i := by
  obtain ⟨_, hlog, hself⟩ := (h.roles c).leader hrole
  funext w
  rw [confirmers, confirmers, proposed_confirmed]
  split
  · rename_i heq
    obtain ⟨rfl, rfl⟩ := heq
    obtain ⟨e, he, _⟩ := ho
    have hi := lt_of_getElem? he
    rw [hself, hlog]
    exact propext ⟨fun _ => hi, fun _ => hi.trans (Nat.lt_succ_self _)⟩
  · rfl

end Proposed

theorem propose_invariant (h : Invariant tm qs s) {c : N} {x : E}
    (hrole : s.role c = .leader) (hx : tm x = s.term c) :
    Invariant tm qs (s.proposed c x) := by
  obtain ⟨hwin, hlog, hself⟩ := (h.roles c).leader hrole
  have hLL := proposed_leaderLog_isPrefix hlog (x := x)
  constructor
  case votes => exact h.votes
  case wins => exact h.wins
  case roles => exact h.proposed_role hrole
  case leaders =>
    have hnew := h.leaders.propose (U := s.term c) (by simp [hwin]) hx
    rw [← hlog] at hnew
    exact hnew
  case logs => exact h.proposed_nodeLog hlog hx
  case chosen =>
    refine h.chosen.mono hLL rfl rfl fun {cm w} _ _ => ?_
    rw [proposed_confirmed]
    split
    · rename_i heq
      rw [heq.1, heq.2, hself, hlog]
      omega
    · exact le_rfl
  case secured =>
    intro cm hcm
    refine (h.secured hcm).proposed (h.chosen.own hcm) hlog hx fun w hw => ?_
    exact h.confirmed_term (Nat.zero_lt_of_lt (h.chosen.confirmed hcm hw))
  case confirmed_term =>
    intro w T hpos
    rw [proposed_confirmed] at hpos
    split at hpos
    · rename_i heq
      rw [heq.1, heq.2]
      rfl
    · exact h.confirmed_term hpos
  case confirmed_length =>
    intro w T
    rw [proposed_confirmed]
    split
    · rename_i heq
      rw [heq.2, proposed_leaderLog_self, List.length_append, List.length_singleton]
    · exact (h.confirmed_length w T).trans (hLL T).length_le
  case committable =>
    intro T i ho hc
    by_cases hnew : T = s.term c ∧ i = (s.log c).length
    · obtain ⟨rfl, rfl⟩ := hnew
      exact Or.inr (h.proposed_secure hlog hc)
    have ho' := ho.of_proposed hlog hnew
    have hsame := h.proposed_confirmers hrole ho' (x := x)
    have hc' : Committable qs s T i :=
      hc.of_le fun w hw => hw.imp_left (congrFun hsame w).mp
    rw [hsame, ho'.upTo_eq (hLL T)]
    refine (h.committable ho' hc').imp id fun hs => ?_
    exact hs.proposed ho' hlog hx fun w hw => h.confirmed_term (Nat.zero_lt_of_lt hw)
  case fresh_match =>
    intro hf w i e he
    by_cases hw : w = c
    · subst hw
      rw [proposed_log_self] at he ⊢
      rcases getElem?_concat he with he' | ⟨_, rfl⟩
      · rw [List.take_append_of_le_length (lt_of_getElem? he')]
        exact match_mono he' (h.fresh_match hf he') (hLL _)
      · rw [hx, proposed_leaderLog_self]
    · rw [proposed_log_of_ne hw] at he ⊢
      exact match_mono he (h.fresh_match hf he) (hLL _)
  case fresh_cover => exact h.fresh_cover

end ReplicatedLog
