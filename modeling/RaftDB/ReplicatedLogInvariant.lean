import RaftDB.ReplicatedLog
import RaftDB.LogPrefix

/-!
# The invariant of the replicated log

The clauses fall into five groups: votes and candidacies, won terms and the logs of
their leaders, the nodes' own logs, commits, and confirmations. Everything a quorum
argument needs about the past is in a history field, so each clause speaks about one
state. The last two clauses hold as long as no stale prefix has been installed.
-/
namespace ReplicatedLog

open MajorityQuorum LogPrefix

variable {N E : Type*} (tm : E → ℕ) (qs : QuorumSystem N)

/-- Votes belong to candidacies. A candidacy that was late when it stood has lost a quorum. -/
structure Votes (term : N → ℕ) (voted : N → ℕ → Option N)
    (candidacy : N → ℕ → Option (Candidacy E)) : Prop where
  vote_term : ∀ {w U c}, voted w U = some c → U ≤ term w
  vote_candidacy : ∀ {w U c}, voted w U = some c → ∃ r, candidacy c U = some r
  candidacy_term : ∀ {c U r}, candidacy c U = some r → U ≤ term c
  candidacy_vote : ∀ {c U r}, candidacy c U = some r → voted c U = some c
  timely_terms : ∀ {c U r}, candidacy c U = some r → r.timely → ∀ e ∈ r.log, tm e < U
  late_loses : ∀ {c U r}, candidacy c U = some r → ¬ r.timely → ∃ Q, qs.IsQuorum Q ∧
    ∀ w ∈ Q, voted w U ≠ some c ∧ (U < term w ∨ voted w U ≠ none)

/-- A leader log extends what its leader inherited, and agrees up to each entry with the
leader log of the entry's own term. -/
structure LeaderLogs (winner : ℕ → Option N) (inherited leaderLog : ℕ → List E) : Prop where
  unwon : ∀ {U}, winner U = none → leaderLog U = []
  inherited_term : ∀ {U e}, e ∈ inherited U → tm e < U
  split : ∀ U, ∃ own, leaderLog U = inherited U ++ own ∧ ∀ e ∈ own, tm e = U
  entry_term : ∀ {U i : ℕ} {e}, (leaderLog U)[i]? = some e → tm e ≤ U
  entry_match : ∀ {U i : ℕ} {e}, (leaderLog U)[i]? = some e →
    (leaderLog U).take (i + 1) = (leaderLog (tm e)).take (i + 1)

/-- Above its base a node's log agrees up to each entry with the leader log of the entry's
term; what the node knows to be committed is chosen. -/
structure NodeLog (leaderLog : ℕ → List E) (chosen : List E) (base commit : ℕ)
    (log : List E) : Prop where
  entry_match : ∀ {i : ℕ} {e}, base ≤ i → log[i]? = some e →
    ∀ j : ℕ, base ≤ j → j ≤ i → log[j]? = (leaderLog (tm e))[j]?
  base_le : base ≤ commit
  commit_le : commit ≤ log.length
  commit_chosen : log.take commit <+: chosen

structure RoleLog (s : State N E) (c : N) : Prop where
  candidate : s.role c = .candidate → s.winner (s.term c) ≠ some c ∧
    ∃ r, s.candidacy c (s.term c) = some r ∧ r.log = s.log c ∧
      (r.timely → CoveredBy s (· < s.term c) (s.commit c))
  leader : s.role c = .leader → s.winner (s.term c) = some c ∧
    s.log c = s.leaderLog (s.term c) ∧
    s.confirmed c (s.term c) = (s.leaderLog (s.term c)).length

structure Chosen (s : State N E) : Prop where
  own : ∀ {cm}, cm ∈ s.commits → Own tm s cm.term cm.pos
  is_quorum : ∀ {cm}, cm ∈ s.commits → qs.IsQuorum cm.quorum
  confirmed : ∀ {cm w}, cm ∈ s.commits → w ∈ cm.quorum → cm.pos < s.confirmed w cm.term
  upTo_chosen : ∀ {cm}, cm ∈ s.commits → upTo s cm.term cm.pos <+: s.chosen
  last : s.chosen = [] ∨ ∃ cm ∈ s.commits, s.chosen = upTo s cm.term cm.pos

structure Invariant (s : State N E) : Prop where
  votes : Votes tm qs s.term s.voted s.candidacy
  wins : ∀ {U c}, s.winner U = some c →
    qs.IsQuorum (s.electors U) ∧ ∀ w ∈ s.electors U, s.voted w U = some c
  roles : ∀ c, RoleLog s c
  leaders : LeaderLogs tm s.winner s.inherited s.leaderLog
  logs : ∀ w, NodeLog tm s.leaderLog s.chosen (s.base w) (s.commit w) (s.log w)
  chosen : Chosen tm qs s
  secured : ∀ {cm}, cm ∈ s.commits → Secure tm s (· ∈ cm.quorum) cm.term cm.pos
  confirmed_term : ∀ {w T}, 0 < s.confirmed w T → T ≤ s.term w
  confirmed_length : ∀ w T, s.confirmed w T ≤ (s.leaderLog T).length
  committable : ∀ {T i}, Own tm s T i → Committable qs s T i →
    (s.stale ∧ upTo s T i <+: s.chosen) ∨ Secure tm s (confirmers s T i) T i
  fresh_match : ¬ s.stale → ∀ {w} {i : ℕ} {e}, (s.log w)[i]? = some e →
    (s.log w).take (i + 1) = (s.leaderLog (tm e)).take (i + 1)
  fresh_cover : ¬ s.stale → ∀ w, CoveredBy s (· ≤ s.term w) (s.commit w)

theorem initial_invariant : Invariant tm qs (initial N E) := by
  constructor <;> try (simp [initial, Own, CoveredBy]; done)
  · constructor <;> simp [initial]
  · intro c; constructor <;> simp [initial]
  · constructor <;> simp [initial]
  · intro w; constructor <;> simp [initial]
  · constructor <;> simp [initial]

variable {tm qs} {s : State N E}

theorem Own.upTo_length {T i : ℕ} (h : Own tm s T i) : (upTo s T i).length = i + 1 := by
  obtain ⟨e, he, _⟩ := h
  exact take_succ_length he

theorem upTo_isPrefix (T i : ℕ) : upTo s T i <+: s.leaderLog T := List.take_prefix _ _

theorem Own.upTo_entry {T i : ℕ} (h : Own tm s T i) :
    ∃ e, (upTo s T i)[i]? = some e ∧ tm e = T := by
  obtain ⟨e, he, ht⟩ := h
  exact ⟨e, by rw [upTo, List.getElem?_take_of_lt (Nat.lt_succ_self i)]; exact he, ht⟩

theorem lastTerm_eq {l : List E} {e : E} (h : l[l.length - 1]? = some e) :
    lastTerm tm l = tm e := by
  rw [lastTerm, List.getLast?_eq_getElem?, h]
  rfl

theorem exists_last {l : List E} (h : l ≠ []) : ∃ e, l[l.length - 1]? = some e := by
  have := List.length_pos_of_ne_nil h
  exact ⟨_, List.getElem?_eq_getElem (by omega)⟩

theorem Holds.beats {l r : List E} {T i : ℕ} (h : Holds tm s l T i) (ho : Own tm s T i)
    (hup : UpToDate tm r l) : Beats tm r T i := by
  have hlen : i < l.length := by
    have := h.1.length_le
    rw [ho.upTo_length] at this
    omega
  obtain ⟨e, he⟩ := exists_last (l := l) (by rintro rfl; simp at hlen)
  have hT : T ≤ lastTerm tm l := by
    rw [lastTerm_eq he]
    by_cases hi : i < l.length - 1
    · exact h.2 _ e hi he
    · obtain ⟨x, hx, ht⟩ := ho.upTo_entry
      have hxl := getElem?_of_isPrefix h.1 hx
      have : i = l.length - 1 := by omega
      rw [← this, hxl] at he
      cases he
      exact ht.ge
  rcases hup with hlt | ⟨heq, hle⟩
  · exact Or.inl (by omega)
  · rcases Nat.lt_or_eq_of_le hT with hlt | hT
    · exact Or.inl (by omega)
    · exact Or.inr ⟨by omega, by omega⟩

/-- A log whose entry at `j` matches its own term's leader is ordered below `j`. -/
theorem Invariant.le_of_match (h : Invariant tm qs s) {l : List E} {i j : ℕ} {x y : E}
    (hx : l[i]? = some x) (hij : i ≤ j)
    (hm : l.take (j + 1) = (s.leaderLog (tm y)).take (j + 1)) : tm x ≤ tm y := by
  have hxi : (s.leaderLog (tm y))[i]? = some x := by
    rw [← getElem?_of_take_eq hm (by omega), hx]
  exact h.leaders.entry_term hxi

theorem Invariant.leaderLog_sorted (h : Invariant tm qs s) {U i j : ℕ} {x y : E}
    (hx : (s.leaderLog U)[i]? = some x) (hy : (s.leaderLog U)[j]? = some y) (hij : i ≤ j) :
    tm x ≤ tm y :=
  h.le_of_match hx hij (h.leaders.entry_match hy)

theorem Invariant.won_of_entry (h : Invariant tm qs s) {U i : ℕ} {e : E}
    (he : (s.leaderLog U)[i]? = some e) : s.winner U ≠ none := by
  intro hn
  rw [h.leaders.unwon hn] at he
  simp at he

theorem Invariant.won_of_match (h : Invariant tm qs s) {l : List E} {i : ℕ} {e : E}
    (he : l[i]? = some e) (hm : l.take (i + 1) = (s.leaderLog (tm e)).take (i + 1)) :
    s.winner (tm e) ≠ none := by
  apply h.won_of_entry (i := i) (e := e)
  rw [← getElem?_of_take_eq hm (Nat.lt_succ_self i), he]

theorem Invariant.inherited_isPrefix (h : Invariant tm qs s) (U : ℕ) :
    s.inherited U <+: s.leaderLog U := by
  obtain ⟨own, ho, _⟩ := h.leaders.split U
  exact ⟨own, ho.symm⟩

theorem Invariant.chosen_match (h : Invariant tm qs s) {i : ℕ} {e : E}
    (he : s.chosen[i]? = some e) :
    s.chosen.take (i + 1) = (s.leaderLog (tm e)).take (i + 1) := by
  rcases h.chosen.last with hnil | ⟨cm, _, hcm⟩
  · simp [hnil] at he
  · have hp : s.chosen <+: s.leaderLog cm.term := hcm ▸ upTo_isPrefix _ _
    have hlen := lt_of_getElem? he
    rw [← take_of_isPrefix hp (by omega)]
    exact h.leaders.entry_match (getElem?_of_isPrefix hp he)

theorem Invariant.log_term_won (h : Invariant tm qs s) {w : N} {i : ℕ} {e : E}
    (he : (s.log w)[i]? = some e) : s.winner (tm e) ≠ none := by
  by_cases hi : s.base w ≤ i
  · apply h.won_of_entry (i := i) (e := e)
    rw [← (h.logs w).entry_match hi he i hi le_rfl, he]
  · have hb := (h.logs w).base_le
    have hc : ((s.log w).take (s.commit w))[i]? = some e := by
      rw [List.getElem?_take_of_lt (by omega), he]
    have hch := getElem?_of_isPrefix (h.logs w).commit_chosen hc
    exact h.won_of_match hch (h.chosen_match hch)

theorem Invariant.commit_le_chosen (h : Invariant tm qs s) (w : N) :
    s.commit w ≤ s.chosen.length := by
  have := (h.logs w).commit_chosen.length_le
  rw [List.length_take, Nat.min_eq_left (h.logs w).commit_le] at this
  exact this

theorem Invariant.take_commit (h : Invariant tm qs s) (w : N) {n : ℕ} (hn : n ≤ s.commit w) :
    (s.log w).take n = s.chosen.take n := by
  have hc := (h.logs w).commit_le
  have := take_of_isPrefix (h.logs w).commit_chosen (n := n) (by rw [List.length_take]; omega)
  rw [this, List.take_take, Nat.min_eq_left hn]

theorem Invariant.commit_leaderLog (h : Invariant tm qs s) {cm : Commit N} {U : ℕ}
    (hcm : cm ∈ s.commits) (hle : cm.term ≤ U) (hU : s.winner U ≠ none) :
    upTo s cm.term cm.pos <+: s.leaderLog U := by
  rcases Nat.lt_or_eq_of_le hle with hlt | rfl
  · exact ((h.secured hcm).inherits U hlt hU).trans (h.inherited_isPrefix U)
  · exact upTo_isPrefix _ _

theorem Invariant.chosen_comparable (h : Invariant tm qs s) {T i : ℕ} (ho : Own tm s T i)
    {P : N → Prop} (hs : Secure tm s P T i) : upTo s T i <+: s.chosen ∨ s.chosen <+: upTo s T i := by
  rcases h.chosen.last with hnil | ⟨cm, hcm, heq⟩
  · exact Or.inr (hnil ▸ List.nil_prefix)
  · rw [heq]
    rcases le_or_gt cm.term T with hle | hlt
    · obtain ⟨e, he, _⟩ := ho
      exact prefix_total (upTo_isPrefix _ _) (h.commit_leaderLog hcm hle (h.won_of_entry he))
    · obtain ⟨e, he, _⟩ := h.chosen.own hcm
      have hin := (hs.inherits _ hlt (h.won_of_entry he)).trans (h.inherited_isPrefix _)
      exact prefix_total hin (upTo_isPrefix _ _)

/-- The chosen prefix is sealed into every leader log from the term of its commit on. -/
theorem Invariant.covered_take (h : Invariant tm qs s) {U n : ℕ} (hU : s.winner U ≠ none)
    (hc : CoveredBy s (· ≤ U) n) : s.chosen.take n = (s.leaderLog U).take n := by
  rcases hc with rfl | ⟨cm, hcm, hle, hn⟩
  · simp
  · have hlen := (h.chosen.own hcm).upTo_length
    rw [take_of_isPrefix (h.chosen.upTo_chosen hcm) (by omega),
      take_of_isPrefix (h.commit_leaderLog hcm hle hU) (by omega)]

theorem Invariant.covered_of_timely (h : Invariant tm qs s) {w : N} {U : ℕ}
    (ht : ∀ V, s.winner V ≠ none → V < U) : CoveredBy s (· < U) (s.commit w) := by
  have hle := h.commit_le_chosen w
  rcases h.chosen.last with hnil | ⟨cm, hcm, heq⟩
  · left
    simpa [hnil] using hle
  · right
    obtain ⟨e, he, _⟩ := h.chosen.own hcm
    rw [heq, (h.chosen.own hcm).upTo_length] at hle
    exact ⟨cm, hcm, ht _ (h.won_of_entry he), hle⟩

/-- A log that matches a leader log and beats a secured prefix contains it. -/
theorem Invariant.beats_isPrefix (h : Invariant tm qs s) {l : List E} {T i : ℕ}
    (ho : Own tm s T i) (hb : Beats tm l T i)
    (hm : ∀ j e, l[j]? = some e → l.take (j + 1) = (s.leaderLog (tm e)).take (j + 1))
    (hin : ∀ U, T < U → s.winner U ≠ none → upTo s T i <+: s.inherited U) :
    upTo s T i <+: l := by
  have hne : l ≠ [] := by
    rintro rfl
    rcases hb with hlt | ⟨_, hlt⟩ <;> simp [lastTerm] at hlt
  obtain ⟨e, he⟩ := exists_last hne
  have hpos := List.length_pos_of_ne_nil hne
  have hlast : l = (s.leaderLog (tm e)).take l.length := by
    have := hm _ e he
    rwa [Nat.sub_add_cancel hpos, List.take_length] at this
  have hlen := ho.upTo_length
  rw [Beats, lastTerm_eq he] at hb
  rcases hb with hlt | ⟨heq, hlt⟩
  · -- the later leader has the prefix, and its entry at the end of `l` lies beyond it
    have hU := h.won_of_match he (hm _ e he)
    have hp := (hin _ hlt hU).trans (h.inherited_isPrefix _)
    obtain ⟨x, hx, hxt⟩ := ho.upTo_entry
    have hel : (s.leaderLog (tm e))[l.length - 1]? = some e := by
      rw [← getElem?_of_take_eq (hm _ e he) (Nat.lt_succ_self _), he]
    have hil : i < l.length - 1 := by
      by_contra hle
      have := h.leaderLog_sorted hel (getElem?_of_isPrefix hp hx) (by omega)
      omega
    rw [hlast]
    exact prefix_take_of_le hp (by omega)
  · rw [hlast, heq]
    exact List.take_prefix_take_left (by omega)

end ReplicatedLog
