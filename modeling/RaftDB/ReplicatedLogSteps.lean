import RaftDB.ReplicatedLogInvariant

/-! # Moves that leave the logs alone, and commitment

Terms, roles, votes and commit knowledge. The moves that change a log are in the
modules that follow. -/
namespace ReplicatedLog

open MajorityQuorum LogPrefix Function

variable {N E : Type*} {tm : E → ℕ} {qs : QuorumSystem N} {s s' : State N E}

theorem Committable.of_le {T i : ℕ} (h : Committable qs s' T i)
    (hle : ∀ w, i < s'.confirmed w T ∨ s'.term w ≤ T → i < s.confirmed w T ∨ s.term w ≤ T) :
    Committable qs s T i := by
  obtain ⟨Q, hQ, hw⟩ := h
  exact ⟨Q, hQ, fun w hm => hle w (hw w hm)⟩

theorem CoveredBy.mono {P P' : ℕ → Prop} {n n' : ℕ} (h : CoveredBy s P n)
    (hc : s.commits ⊆ s'.commits) (hP : ∀ t, P t → P' t) (hn : n' ≤ n) :
    CoveredBy s' P' n' := by
  rcases h with rfl | ⟨cm, hcm, hp, hle⟩
  · exact Or.inl (by omega)
  · exact Or.inr ⟨cm, hc hcm, hP _ hp, by omega⟩

theorem RoleLog.of_follower {c : N} (h : s.role c = .follower) : RoleLog s c := by
  constructor <;> simp [h]

theorem RoleLog.of_same {c : N} (h : RoleLog s c) (hrole : s'.role c = s.role c)
    (hterm : s'.term c = s.term c) (hlog : s'.log c = s.log c)
    (hcommit : s'.commit c = s.commit c)
    (hcand : s'.candidacy c (s.term c) = s.candidacy c (s.term c))
    (hwin : s'.winner (s.term c) = s.winner (s.term c))
    (hll : s'.leaderLog (s.term c) = s.leaderLog (s.term c))
    (hconf : s'.confirmed c (s.term c) = s.confirmed c (s.term c))
    (hcm : s.commits ⊆ s'.commits) : RoleLog s' c := by
  constructor
  · intro hc
    rw [hrole] at hc
    rw [hterm, hlog, hcommit, hcand, hwin]
    obtain ⟨hw, r, hr, hrl, hcov⟩ := h.candidate hc
    exact ⟨hw, r, hr, hrl, fun ht => (hcov ht).mono hcm (fun _ hp => hp) le_rfl⟩
  · intro hc
    rw [hrole] at hc
    rw [hterm, hlog, hwin, hll, hconf]
    exact h.leader hc

theorem Secure.of_same {P : N → Prop} {T i : ℕ} (h : Secure tm s P T i)
    (hlog : ∀ w, P w → s'.log w = s.log w)
    (hvoted : s'.voted = s.voted) (hcand : s'.candidacy = s.candidacy)
    (hwin : s'.winner = s.winner) (hinh : s'.inherited = s.inherited)
    (hup : upTo s' T i = upTo s T i) : Secure tm s' P T i := by
  constructor
  · intro w hw
    rw [Holds, hup, hlog w hw]
    exact h.held w hw
  · rw [hvoted, hcand]
    exact h.votes
  · rw [hwin, hinh, hup]
    exact h.inherits

theorem knowledge_invariant (h : Invariant tm qs s) {role : N → Role} {base commit : N → ℕ}
    (hroles : ∀ c, RoleLog { s with role := role, base := base, commit := commit } c)
    (hlogs : ∀ w, NodeLog tm s.leaderLog s.chosen (base w) (commit w) (s.log w))
    (hcover : ¬ s.stale → ∀ w, CoveredBy s (· ≤ s.term w) (commit w)) :
    Invariant tm qs { s with role := role, base := base, commit := commit } where
  votes := h.votes
  wins := h.wins
  roles := hroles
  leaders := h.leaders
  logs := hlogs
  chosen := ⟨h.chosen.own, h.chosen.is_quorum, h.chosen.confirmed, h.chosen.upTo_chosen,
    h.chosen.last⟩
  secured := fun hcm => (h.secured hcm).of_same (fun _ _ => rfl) rfl rfl rfl rfl rfl
  confirmed_term := h.confirmed_term
  confirmed_length := h.confirmed_length
  committable := fun ho hc =>
    (h.committable ho hc).imp_right (·.of_same (fun _ _ => rfl) rfl rfl rfl rfl rfl)
  fresh_match := h.fresh_match
  fresh_cover := hcover

/-- A candidacy that is late when it stands has lost the electors of a later term. -/
theorem Invariant.stand_late (h : Invariant tm qs s) {c : N} {U : ℕ}
    (hU : s.winner U ≠ none) (hlt : s.term c < U) :
    ∃ Q, qs.IsQuorum Q ∧ ∀ w ∈ Q, w ≠ c ∧
      (s.term c + 1 < s.term w ∨ s.voted w (s.term c + 1) ≠ none) := by
  obtain ⟨d, hd⟩ := Option.ne_none_iff_exists'.mp hU
  obtain ⟨hQ, hv⟩ := h.wins hd
  refine ⟨_, hQ, fun w hw => ?_⟩
  have hle := h.votes.vote_term (hv w hw)
  refine ⟨by rintro rfl; omega, ?_⟩
  by_cases he : U = s.term c + 1
  · exact Or.inr (by rw [← he, hv w hw]; simp)
  · exact Or.inl (by omega)

theorem Votes.next_candidacy {term : N → ℕ} {voted : N → ℕ → Option N}
    {candidacy : N → ℕ → Option (Candidacy E)} (h : Votes tm qs term voted candidacy) (c : N) :
    candidacy c (term c + 1) = none := by
  by_contra hne
  obtain ⟨r, hr⟩ := Option.ne_none_iff_exists'.mp hne
  have := h.candidacy_term hr
  omega

theorem Votes.next_unvoted {term : N → ℕ} {voted : N → ℕ → Option N}
    {candidacy : N → ℕ → Option (Candidacy E)} (h : Votes tm qs term voted candidacy)
    (c w : N) :
    voted w (term c + 1) ≠ some c := by
  intro hw
  obtain ⟨r, hr⟩ := h.vote_candidacy hw
  simp [h.next_candidacy c] at hr

variable [DecidableEq N]

theorem le_update {f : N → ℕ} {w : N} {t : ℕ} (ht : f w ≤ t) (v : N) : f v ≤ update f w t v := by
  by_cases hv : v = w
  · subst hv; simpa using ht
  · simp [hv]

theorem observe_invariant (h : Invariant tm qs s) {w : N} {t : ℕ} (ht : s.term w < t) :
    Invariant tm qs { s with term := update s.term w t, role := update s.role w .follower } := by
  have hle := le_update (f := s.term) (w := w) ht.le
  constructor
  case votes =>
    refine ⟨fun hv => (h.votes.vote_term hv).trans (hle _), h.votes.vote_candidacy,
      fun hr => (h.votes.candidacy_term hr).trans (hle _), h.votes.candidacy_vote,
      h.votes.timely_terms, ?_⟩
    intro c U r hr hl
    obtain ⟨Q, hQ, hw⟩ := h.votes.late_loses hr hl
    exact ⟨Q, hQ, fun v hv => ⟨(hw v hv).1, (hw v hv).2.imp_left (·.trans_le (hle v))⟩⟩
  case wins => exact h.wins
  case roles =>
    intro c
    by_cases hc : c = w
    · subst c
      exact RoleLog.of_follower (by simp)
    · exact (h.roles c).of_same (by simp [hc]) (by simp [hc]) rfl rfl rfl rfl rfl rfl
        (fun _ hm => hm)
  case leaders => exact h.leaders
  case logs => exact h.logs
  case chosen =>
    exact ⟨h.chosen.own, h.chosen.is_quorum, h.chosen.confirmed, h.chosen.upTo_chosen,
      h.chosen.last⟩
  case secured => exact fun hcm => (h.secured hcm).of_same (fun _ _ => rfl) rfl rfl rfl rfl rfl
  case confirmed_term => exact fun hv => (h.confirmed_term hv).trans (hle _)
  case confirmed_length => exact h.confirmed_length
  case committable =>
    intro T i ho hc
    have hc' : Committable qs s T i := hc.of_le fun v hv => hv.imp_right ((hle v).trans ·)
    exact (h.committable ho hc').imp_right
      (·.of_same (fun _ _ => rfl) rfl rfl rfl rfl rfl)
  case fresh_match => exact h.fresh_match
  case fresh_cover =>
    exact fun hs v => (h.fresh_cover hs v).mono (fun _ hm => hm)
      (fun _ hm => hm.trans (hle v)) le_rfl

theorem relax_invariant (h : Invariant tm qs s) {w : N} {c : ℕ} (hb : s.base w ≤ c)
    (hc : c ≤ s.commit w) :
    Invariant tm qs { s with
      role := update s.role w .follower
      commit := update s.commit w c } := by
  apply knowledge_invariant h
  · intro v
    by_cases hv : v = w
    · subst hv
      exact RoleLog.of_follower (by simp)
    · exact (h.roles v).of_same (by simp [hv]) rfl rfl (by simp [hv]) rfl rfl rfl rfl
        (fun _ hm => hm)
  · intro v
    by_cases hv : v = w
    · subst hv
      rw [update_self]
      have hl := h.logs v
      refine ⟨hl.entry_match, hb, hc.trans hl.commit_le, ?_⟩
      exact (List.take_prefix_take_left hc).trans hl.commit_chosen
    · rw [update_of_ne hv]
      exact h.logs v
  · intro hs v
    by_cases hv : v = w
    · subst hv
      rw [update_self]
      exact (h.fresh_cover hs v).mono (fun _ hm => hm) (fun _ hm => hm) hc
    · rw [update_of_ne hv]
      exact h.fresh_cover hs v

theorem compact_invariant (h : Invariant tm qs s) {w : N} {n : ℕ} (hb : s.base w ≤ n)
    (hn : n ≤ s.commit w) : Invariant tm qs { s with base := update s.base w n } := by
  apply knowledge_invariant h
  · exact fun v => (h.roles v).of_same rfl rfl rfl rfl rfl rfl rfl rfl (fun _ hm => hm)
  · intro v
    by_cases hv : v = w
    · subst hv
      rw [update_self]
      have hl := h.logs v
      exact ⟨fun hi he j hj hji => hl.entry_match (hb.trans hi) he j (hb.trans hj) hji, hn,
        hl.commit_le, hl.commit_chosen⟩
    · rw [update_of_ne hv]
      exact h.logs v
  · exact h.fresh_cover

theorem learn_invariant (h : Invariant tm qs s) {w : N} {c : ℕ} (hrole : s.role w = .follower)
    (hc : s.commit w ≤ c) (hlen : c ≤ (s.log w).length)
    (hagree : ∀ i, s.base w ≤ i → i < c → (s.log w)[i]? = (s.leaderLog (s.term w))[i]?)
    (hchosen : (s.leaderLog (s.term w)).take c <+: s.chosen)
    (hcover : s.stale ∨ CoveredBy s (· ≤ s.term w) c) :
    Invariant tm qs { s with commit := update s.commit w c } := by
  apply knowledge_invariant h
  · intro v
    by_cases hv : v = w
    · subst hv
      exact RoleLog.of_follower hrole
    · exact (h.roles v).of_same rfl rfl rfl (by simp [hv]) rfl rfl rfl rfl (fun _ hm => hm)
  · intro v
    by_cases hv : v = w
    · subst hv
      rw [update_self]
      have hl := h.logs v
      refine ⟨hl.entry_match, hl.base_le.trans hc, hlen, ?_⟩
      have htake : (s.log v).take c = s.chosen.take c := by
        apply take_congr
        intro i hi
        by_cases hb : s.base v ≤ i
        · rw [hagree i hb hi]
          obtain ⟨e, he⟩ : ∃ e, (s.log v)[i]? = some e :=
            ⟨_, List.getElem?_eq_getElem (hi.trans_le hlen)⟩
          have hle : ((s.leaderLog (s.term v)).take c)[i]? = some e := by
            rw [List.getElem?_take_of_lt hi, ← hagree i hb hi, he]
          rw [getElem?_of_isPrefix hchosen hle, ← hagree i hb hi, he]
        · exact getElem?_of_take_eq (h.take_commit v hl.base_le) (by omega)
      rw [htake]
      exact List.take_prefix _ _
    · rw [update_of_ne hv]
      exact h.logs v
  · intro hs v
    by_cases hv : v = w
    · subst hv
      rw [update_self]
      exact hcover.resolve_left hs
    · rw [update_of_ne hv]
      exact h.fresh_cover hs v

theorem commitCovered_invariant (h : Invariant tm qs s) {c : N} {i : ℕ}
    (hrole : s.role c = .leader) (hc : s.commit c ≤ i) (hlen : i < (s.log c).length)
    (hstale : s.stale) (hchosen : upTo s (s.term c) i <+: s.chosen) :
    Invariant tm qs { s with commit := update s.commit c (i + 1) } := by
  apply knowledge_invariant h
  · intro v
    by_cases hv : v = c
    · subst hv
      exact ⟨fun hcand => by simp [hrole] at hcand, (h.roles v).leader⟩
    · exact (h.roles v).of_same rfl rfl rfl (by simp [hv]) rfl rfl rfl rfl (fun _ hm => hm)
  · intro v
    by_cases hv : v = c
    · subst hv
      rw [update_self]
      have hl := h.logs v
      refine ⟨hl.entry_match, hl.base_le.trans (by omega), hlen, ?_⟩
      rw [((h.roles v).leader hrole).2.1]
      exact hchosen
    · rw [update_of_ne hv]
      exact h.logs v
  · exact fun hs => absurd hstale hs

theorem update₂_apply {β : Type*} (f : N → ℕ → β) (a w : N) (n m : ℕ) (v : β) :
    update f a (update (f a) n v) w m = if w = a ∧ m = n then v else f w m := by
  by_cases hw : w = a
  · subst hw
    by_cases hm : m = n
    · subst hm; simp
    · simp [hm]
  · simp [hw]

theorem Secure.vote {P : N → Prop} {T i : ℕ} {w c : N} {U : ℕ} {r : Candidacy E}
    {voted : N → ℕ → Option N} {candidacy : N → ℕ → Option (Candidacy E)}
    (h : Secure tm s P T i) (ho : Own tm s T i)
    (hvoted : ∀ v V, voted v V = if v = w ∧ V = U then some c else s.voted v V)
    (hcand : ∀ d V, V ≠ U ∨ d ≠ c → candidacy d V = s.candidacy d V)
    (hold : ∀ v, s.voted v U = some c → candidacy c U = s.candidacy c U)
    (hr : candidacy c U = some r) (hup : UpToDate tm r.log (s.log w))
    {term : N → ℕ} {role : N → Role} :
    Secure tm { s with term := term, role := role, voted := voted, candidacy := candidacy }
      P T i := by
  refine ⟨h.held, ?_, h.inherits⟩
  intro v d V r' hv hV hvd hd
  change voted v V = some d at hvd
  change candidacy d V = some r' at hd
  rw [hvoted] at hvd
  split at hvd
  · rename_i heq
    obtain ⟨rfl, rfl⟩ := heq
    cases hvd
    rw [hr] at hd
    cases hd
    exact (h.held v hv).beats ho hup
  · by_cases hdc : V ≠ U ∨ d ≠ c
    · rw [hcand d V hdc] at hd
      exact h.votes v d V r' hv hV hvd hd
    · push Not at hdc
      obtain ⟨rfl, rfl⟩ := hdc
      rw [hold v hvd] at hd
      exact h.votes v d V r' hv hV hvd hd

theorem UpToDate.refl (l : List E) : UpToDate tm l l := Or.inr ⟨rfl, le_rfl⟩

section Votes

variable {term : N → ℕ} {voted : N → ℕ → Option N} {candidacy : N → ℕ → Option (Candidacy E)}

theorem Votes.stand (h : Votes tm qs term voted candidacy) (c : N) {r : Candidacy E}
    (hterms : r.timely → ∀ e ∈ r.log, tm e < term c + 1)
    (hlate : ¬ r.timely → ∃ Q, qs.IsQuorum Q ∧ ∀ w ∈ Q, w ≠ c ∧
      (term c + 1 < term w ∨ voted w (term c + 1) ≠ none)) :
    Votes tm qs (update term c (term c + 1))
      (update voted c (update (voted c) (term c + 1) (some c)))
      (update candidacy c (update (candidacy c) (term c + 1) (some r))) := by
  have hle := le_update (f := term) (w := c) (Nat.le_succ _)
  constructor
  case vote_term =>
    intro w U d hv
    rw [update₂_apply] at hv
    split at hv
    · rename_i heq
      rw [heq.1, heq.2, update_self]
    · exact (h.vote_term hv).trans (hle w)
  case vote_candidacy =>
    intro w U d hv
    rw [update₂_apply] at hv
    split at hv
    · rename_i heq
      cases hv
      exact ⟨r, by rw [update₂_apply, if_pos ⟨rfl, heq.2⟩]⟩
    · obtain ⟨r', hr⟩ := h.vote_candidacy hv
      refine ⟨r', ?_⟩
      rw [update₂_apply, if_neg, hr]
      rintro ⟨rfl, rfl⟩
      simp [h.next_candidacy] at hr
  case candidacy_term =>
    intro d U r' hr
    rw [update₂_apply] at hr
    split at hr
    · rename_i heq
      rw [heq.1, heq.2, update_self]
    · exact (h.candidacy_term hr).trans (hle d)
  case candidacy_vote =>
    intro d U r' hr
    rw [update₂_apply] at hr ⊢
    split at hr
    · rename_i heq
      rw [if_pos heq, heq.1]
    · rename_i hne
      rw [if_neg hne]
      exact h.candidacy_vote hr
  case timely_terms =>
    intro d U r' hr ht
    rw [update₂_apply] at hr
    split at hr
    · rename_i heq
      cases hr
      rw [heq.2]
      exact hterms ht
    · exact h.timely_terms hr ht
  case late_loses =>
    intro d U r' hr hl
    rw [update₂_apply] at hr
    split at hr
    · rename_i heq
      cases hr
      rw [heq.1, heq.2]
      obtain ⟨Q, hQ, hw⟩ := hlate hl
      refine ⟨Q, hQ, fun w hm => ?_⟩
      obtain ⟨hwc, hlost⟩ := hw w hm
      rw [update₂_apply, if_neg (by tauto)]
      exact ⟨h.next_unvoted c w, hlost.imp_left (·.trans_le (hle w))⟩
    · rename_i hne
      obtain ⟨Q, hQ, hw⟩ := h.late_loses hr hl
      refine ⟨Q, hQ, fun w hm => ?_⟩
      obtain ⟨hwd, hlost⟩ := hw w hm
      rw [update₂_apply]
      split
      · rename_i heq
        refine ⟨?_, Or.inr (by simp)⟩
        intro hcd
        cases hcd
        exact hne ⟨rfl, heq.2⟩
      · exact ⟨hwd, hlost.imp_left (·.trans_le (hle w))⟩

theorem Votes.grant (h : Votes tm qs term voted candidacy) {w c : N} {r : Candidacy E}
    (hr : candidacy c (term w) = some r)
    (hfree : voted w (term w) = none ∨ voted w (term w) = some c) :
    Votes tm qs term (update voted w (update (voted w) (term w) (some c))) candidacy := by
  constructor
  case vote_term =>
    intro v U d hv
    rw [update₂_apply] at hv
    split at hv
    · rename_i heq
      rw [heq.1, heq.2]
    · exact h.vote_term hv
  case vote_candidacy =>
    intro v U d hv
    rw [update₂_apply] at hv
    split at hv
    · rename_i heq
      cases hv
      exact ⟨r, heq.2 ▸ hr⟩
    · exact h.vote_candidacy hv
  case candidacy_term => exact h.candidacy_term
  case candidacy_vote =>
    intro d U r' hd
    have hv := h.candidacy_vote hd
    rw [update₂_apply]
    split
    · rename_i heq
      obtain ⟨rfl, rfl⟩ := heq
      rw [hv] at hfree
      exact (hfree.resolve_left (by simp)).symm
    · exact hv
  case timely_terms => exact h.timely_terms
  case late_loses =>
    intro d U r' hd hl
    obtain ⟨Q, hQ, hw⟩ := h.late_loses hd hl
    refine ⟨Q, hQ, fun v hm => ?_⟩
    obtain ⟨hvd, hlost⟩ := hw v hm
    rw [update₂_apply]
    split
    · rename_i heq
      obtain ⟨rfl, rfl⟩ := heq
      have hv : voted v (term v) = some c :=
        hfree.resolve_left (hlost.resolve_left (lt_irrefl _))
      rw [hv] at hvd
      exact ⟨hvd, Or.inr (by simp)⟩
    · exact ⟨hvd, hlost⟩

end Votes

theorem Invariant.stood_role (h : Invariant tm qs s) (c d : N) : RoleLog (s.stood c) d := by
  by_cases hd : d = c
  · subst hd
    refine ⟨fun _ => ?_, fun hl => by simp [State.stood] at hl⟩
    simp only [State.stood, update_self]
    refine ⟨?_, _, rfl, rfl, fun ht => h.covered_of_timely ht⟩
    intro hw
    obtain ⟨hQ, hv⟩ := h.wins hw
    obtain ⟨w, hwQ, _⟩ := qs.meets hQ hQ
    exact h.votes.next_unvoted d w (hv w hwQ)
  · refine (h.roles d).of_same (by simp [State.stood, hd]) (by simp [State.stood, hd]) rfl
      rfl ?_ rfl rfl rfl (fun _ hm => hm)
    simp [State.stood, hd]

theorem stand_invariant (h : Invariant tm qs s) (c : N) :
    Invariant tm qs (s.stood c) := by
  have hle := le_update (f := s.term) (w := c) (Nat.le_succ _)
  have hunvoted := h.votes.next_unvoted c
  have hsecure : ∀ {P : N → Prop} {T i : ℕ}, Own tm s T i → Secure tm s P T i →
      Secure tm (s.stood c) P T i := by
    intro P T i ho hs
    refine hs.vote ho (w := c) (c := c) (U := s.term c + 1)
      (r := ⟨s.log c, ∀ U, s.winner U ≠ none → U < s.term c + 1⟩)
      (fun v V => update₂_apply s.voted c v _ V _) ?_ (fun v hv => absurd hv (hunvoted v))
      (by simp) (UpToDate.refl _)
    intro d V hdV
    rw [update₂_apply, if_neg (by tauto)]
  constructor
  case votes =>
    refine h.votes.stand c ?_ ?_
    · intro ht e he
      obtain ⟨i, hi⟩ := List.mem_iff_getElem?.mp he
      exact ht _ (h.log_term_won hi)
    · intro hl
      change ¬ ∀ U, s.winner U ≠ none → U < s.term c + 1 at hl
      push Not at hl
      obtain ⟨V, hV, hlt⟩ := hl
      exact h.stand_late hV (by omega)
  case wins =>
    intro U d hU
    obtain ⟨hQ, hv⟩ := h.wins hU
    refine ⟨hQ, fun w hw => ?_⟩
    dsimp only [State.stood]
    rw [update₂_apply, if_neg]
    · exact hv w hw
    · rintro ⟨rfl, rfl⟩
      have := h.votes.vote_term (hv w hw)
      omega
  case roles => exact h.stood_role c
  case leaders => exact h.leaders
  case logs => exact h.logs
  case chosen =>
    exact ⟨h.chosen.own, h.chosen.is_quorum, h.chosen.confirmed, h.chosen.upTo_chosen,
      h.chosen.last⟩
  case secured => exact fun hcm => hsecure (h.chosen.own hcm) (h.secured hcm)
  case confirmed_term => exact fun hv => (h.confirmed_term hv).trans (hle _)
  case confirmed_length => exact h.confirmed_length
  case committable =>
    intro T i ho hc
    have hc' : Committable qs s T i := hc.of_le fun v hv => hv.imp_right ((hle v).trans ·)
    exact (h.committable ho hc').imp_right (hsecure ho)
  case fresh_match => exact h.fresh_match
  case fresh_cover =>
    exact fun hs v => (h.fresh_cover hs v).mono (fun _ hm => hm)
      (fun _ hm => hm.trans (hle v)) le_rfl

theorem grant_invariant (h : Invariant tm qs s) {w c : N} {r : Candidacy E}
    (hr : s.candidacy c (s.term w) = some r)
    (hfree : s.voted w (s.term w) = none ∨ s.voted w (s.term w) = some c)
    (hup : UpToDate tm r.log (s.log w)) :
    Invariant tm qs (s.granted w c) := by
  have hsecure : ∀ {P : N → Prop} {T i : ℕ}, Own tm s T i → Secure tm s P T i →
      Secure tm (s.granted w c) P T i :=
    fun ho hs => hs.vote ho (w := w) (c := c) (U := s.term w)
      (fun v V => update₂_apply s.voted w v _ V _) (fun _ _ _ => rfl) (fun _ _ => rfl) hr hup
  constructor
  case votes => exact h.votes.grant hr hfree
  case wins =>
    intro U d hU
    obtain ⟨hQ, hv⟩ := h.wins hU
    refine ⟨hQ, fun v hm => ?_⟩
    dsimp only [State.granted]
    rw [update₂_apply]
    split
    · rename_i heq
      obtain ⟨rfl, rfl⟩ := heq
      rw [hv v hm] at hfree
      exact (hfree.resolve_left (by simp)).symm
    · exact hv v hm
  case roles => exact fun d => (h.roles d).of_same rfl rfl rfl rfl rfl rfl rfl rfl (fun _ hm => hm)
  case leaders => exact h.leaders
  case logs => exact h.logs
  case chosen =>
    exact ⟨h.chosen.own, h.chosen.is_quorum, h.chosen.confirmed, h.chosen.upTo_chosen,
      h.chosen.last⟩
  case secured => exact fun hcm => hsecure (h.chosen.own hcm) (h.secured hcm)
  case confirmed_term => exact h.confirmed_term
  case confirmed_length => exact h.confirmed_length
  case committable => exact fun ho hc => (h.committable ho hc).imp_right (hsecure ho)
  case fresh_match => exact h.fresh_match
  case fresh_cover => exact h.fresh_cover

section Committed

variable {c : N} {i : ℕ} {Q : Finset N}

theorem Own.committed_grows (ho : Own tm s (s.term c) i)
    (hcmp : upTo s (s.term c) i <+: s.chosen ∨ s.chosen <+: upTo s (s.term c) i) :
    s.chosen <+: (s.committed c i Q).chosen ∧
      upTo s (s.term c) i <+: (s.committed c i Q).chosen := by
  have hlen := ho.upTo_length
  dsimp only [State.committed]
  split
  · rename_i hle
    refine ⟨hcmp.resolve_left fun hp => ?_, List.prefix_refl _⟩
    have := hp.length_le
    omega
  · rename_i hgt
    refine ⟨List.prefix_refl _, hcmp.elim id fun hp => ?_⟩
    have := hp.eq_of_length_le (by omega)
    rw [this]

theorem Chosen.committed (h : Chosen tm qs s) (hQ : qs.IsQuorum Q)
    (hconf : ∀ w ∈ Q, i < s.confirmed w (s.term c)) (ho : Own tm s (s.term c) i)
    (hcmp : upTo s (s.term c) i <+: s.chosen ∨ s.chosen <+: upTo s (s.term c) i) :
    Chosen tm qs (s.committed c i Q) := by
  obtain ⟨hold, hnew⟩ := ho.committed_grows hcmp (Q := Q)
  constructor
  case own =>
    rintro cm (rfl | hcm)
    · exact ho
    · exact h.own hcm
  case is_quorum =>
    rintro cm (rfl | hcm)
    · exact hQ
    · exact h.is_quorum hcm
  case confirmed =>
    rintro cm w (rfl | hcm) hw
    · exact hconf w hw
    · exact h.confirmed hcm hw
  case upTo_chosen =>
    rintro cm (rfl | hcm)
    · exact hnew
    · exact (h.upTo_chosen hcm).trans hold
  case last =>
    right
    by_cases hle : s.chosen.length ≤ i
    · exact ⟨_, Set.mem_insert _ _, if_pos hle⟩
    · obtain ⟨cm, hcm, heq⟩ := h.last.resolve_left (by rintro hn; simp [hn] at hle)
      exact ⟨cm, Set.mem_insert_of_mem _ hcm, (if_neg hle).trans heq⟩

theorem Invariant.committed_nodeLog (h : Invariant tm qs s) (hrole : s.role c = .leader)
    (hc : s.commit c ≤ i) (ho : Own tm s (s.term c) i)
    (hcmp : upTo s (s.term c) i <+: s.chosen ∨ s.chosen <+: upTo s (s.term c) i) (w : N) :
    NodeLog tm s.leaderLog (s.committed c i Q).chosen (s.base w) ((s.committed c i Q).commit w)
      (s.log w) := by
  obtain ⟨hold, hnew⟩ := ho.committed_grows hcmp (Q := Q)
  have hl := h.logs w
  by_cases hw : w = c
  · subst hw
    rw [show (s.committed w i Q).commit w = i + 1 from update_self ..]
    have hlog := ((h.roles w).leader hrole).2.1
    refine ⟨hl.entry_match, hl.base_le.trans (by omega), ?_, ?_⟩
    · obtain ⟨e, he, _⟩ := ho
      rw [hlog]
      exact lt_of_getElem? he
    · rw [hlog]
      exact hnew
  · rw [show (s.committed c i Q).commit w = s.commit w from update_of_ne hw ..]
    exact ⟨hl.entry_match, hl.base_le, hl.commit_le, hl.commit_chosen.trans hold⟩

end Committed

/-- A secured confirmation becomes a commit, and the chosen prefix grows to it. -/
theorem commitSecure_invariant (h : Invariant tm qs s) {c : N} {i : ℕ} {Q : Finset N}
    (hrole : s.role c = .leader) (hc : s.commit c ≤ i) (hQ : qs.IsQuorum Q)
    (hconf : ∀ w ∈ Q, i < s.confirmed w (s.term c)) (ho : Own tm s (s.term c) i)
    (hs : Secure tm s (confirmers s (s.term c) i) (s.term c) i)
    (hcmp : upTo s (s.term c) i <+: s.chosen ∨ s.chosen <+: upTo s (s.term c) i) :
    Invariant tm qs (s.committed c i Q) := by
  have hgrow := (ho.committed_grows hcmp (Q := Q)).1
  have hold : s.commits ⊆ (s.committed c i Q).commits := Set.subset_insert _ _
  constructor
  case votes => exact h.votes
  case wins => exact h.wins
  case roles =>
    intro d
    by_cases hd : d = c
    · subst hd
      exact ⟨fun hcand => absurd (hrole.symm.trans hcand) (by simp), (h.roles d).leader⟩
    · exact (h.roles d).of_same rfl rfl rfl (update_of_ne hd ..) rfl rfl rfl rfl hold
  case leaders => exact h.leaders
  case logs => exact h.committed_nodeLog hrole hc ho hcmp
  case chosen => exact h.chosen.committed hQ hconf ho hcmp
  case secured =>
    rintro cm (rfl | hcm)
    · exact ⟨fun w hw => hs.held w (hconf w hw), fun w d U r hw => hs.votes w d U r (hconf w hw),
        hs.inherits⟩
    · exact (h.secured hcm).of_same (fun _ _ => rfl) rfl rfl rfl rfl rfl
  case confirmed_term => exact h.confirmed_term
  case confirmed_length => exact h.confirmed_length
  case committable =>
    intro T j hoT hcT
    exact (h.committable hoT hcT).imp (fun hk => ⟨hk.1, hk.2.trans hgrow⟩)
      (·.of_same (fun _ _ => rfl) rfl rfl rfl rfl rfl)
  case fresh_match => exact h.fresh_match
  case fresh_cover =>
    intro hf w
    dsimp only [State.committed] at hf ⊢
    by_cases hw : w = c
    · subst hw
      rw [update_self]
      exact Or.inr ⟨_, Set.mem_insert _ _, le_rfl, le_rfl⟩
    · rw [update_of_ne hw]
      exact (h.fresh_cover hf w).mono hold (fun _ hm => hm) le_rfl

end ReplicatedLog
