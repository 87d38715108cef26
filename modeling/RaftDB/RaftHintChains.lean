import RaftDB.RaftStability

/-!
# Following the hints

A node names the winner of its own term. The node that it names may have moved on to a later term
and name somebody else, but it never sends anybody back: it leads the term, or it knows no leader,
or it is in a later term than the node that named it. So whoever follows the hints comes to an end.
-/
namespace Raft

open Storage ClusterConfig TransitionSystem
open RaftNode hiding id

variable {σ D : Type} {M : StateMachine σ D} {c : ValidCluster} {settings : NodeId → Config}
  {s t : System σ D} {n : NodeId} {p q : Proc σ D} {i : Input D} {e : Event D}

theorem Proc.Handled.stillLeads {p' : Proc σ D} {out : Output D} (h : p.Handled M i p' out)
    (hlead : p.node.state = .leader) (hsame : p'.node.leaderID = p.node.leaderID)
    (hknown : p.node.leaderID ≠ None) :
    p'.node.state = .leader ∨ ∃ term, i.leader = some (p'.node.leaderID, term) := by
  have hforgot : ∀ term, p.node.currentTerm < term →
      p'.node.leaderID ≠ (p.node.becomeFollowerLocked term).1.leaderID := by
    intro term hlt
    rw [hsame, becomeFollowerLocked, if_pos hlt]
    exact hknown
  cases h with
  | started | resumed | stopped | replicated => exact Or.inl hlead
  | stood hstate => exact absurd hlead hstate
  | proposed hres =>
    obtain ⟨log, n, rfl, _⟩ := proposeAt_frame hres
    exact Or.inl hlead
  | @voted args _ _ hres =>
    rcases handleRequestVote_frame hres with rfl | ⟨vote, rfl⟩
    · exact Or.inl hlead
    by_cases hlt : p.node.currentTerm < args.term
    · simp only [inTerm, if_pos hlt] at hsame
      exact absurd hsame.symm hknown
    · left
      simp only [inTerm, if_neg hlt]
      exact hlead
  | @appended args _ _ hres =>
    rcases handleAppendEntries_frame hres with rfl | ⟨_, log, n, rfl, _⟩
    · exact Or.inl hlead
    · exact Or.inr ⟨args.term, rfl⟩
  | @installed args _ _ hres =>
    rcases handleInstallSnapshot_frame hres with rfl | ⟨_, log, n, pending, rfl, _⟩
    · exact Or.inl hlead
    · exact Or.inr ⟨args.term, rfl⟩
  | @voteReply term reply rn' u hres =>
    have hcases := p.node.handleRequestVoteReply_cases term reply
    generalize p.node.handleRequestVoteReply term reply = o at hres hcases
    cases hcases with
    | ignored | counted =>
      cases hres
      exact Or.inl hlead
    | won =>
      cases hres
      exact Or.inl rfl
    | deposed hlt =>
      cases hres
      exact absurd rfl (hforgot _ hlt)
  | @appendReply peer term args reply rn' u hres =>
    have hcases := p.node.handleAppendEntriesReply_cases peer term args reply
    generalize p.node.handleAppendEntriesReply peer term args reply = o at hres hcases
    cases hcases with
    | ignored | rejected =>
      cases hres
      exact Or.inl hlead
    | confirmed _ _ _ hadv =>
      cases hres
      obtain ⟨n, rfl⟩ := advanceCommitIndexLocked_frame hadv
      exact Or.inl hlead
    | panicked => cases hres
    | deposed hlt =>
      cases hres
      exact absurd rfl (hforgot _ hlt)
  | @snapshotReply peer term args reply rn' u hres =>
    have hcases := p.node.handleInstallSnapshotReply_cases peer term args reply
    generalize p.node.handleInstallSnapshotReply peer term args reply = o at hres hcases
    cases hcases with
    | ignored | caughtUp =>
      cases hres
      exact Or.inl hlead
    | deposed hlt =>
      cases hres
      exact absurd rfl (hforgot _ hlt)
  | applier ho hx =>
    obtain ⟨log, applied, pending, heq⟩ := applier_frame ho hx
    rw [heq]
    exact Or.inl hlead

theorem leader_elsewhere (hrun : Runs (System.step M c settings) Always System.init s)
    (hst : s.step M c settings e = some t) (hin : s.inputOf e = some (n, i)) {leaderID : NodeId}
    {term : ℕ} (hl : i.leader = some (leaderID, term)) : leaderID ≠ n := by
  obtain ⟨a, ha⟩ := exists_account hrun
  cases input_origin hst hin with
  | own hi =>
    cases i with
    | appendEntries | installSnapshot => cases hi
    | _ => cases hl
  | request call hk hcallee heq =>
    subst heq
    have hc := List.mem_of_getElem? hk
    rw [signed_of_runs hrun call hc _ _ hl, ← hcallee]
    exact (ha.calls call hc).distinct.symm
  | reply k call reply _ _ _ hi _ =>
    cases reply <;> rw [Call.input] at hi <;> split at hi <;> cases hi <;> cases hl

theorem own_hint (hrun : Runs (System.step M c settings) Always System.init s)
    (hp : (s.hosts n).proc = some p) (hown : p.node.leaderID = n) : p.node.state = .leader := by
  induction hrun generalizing p with
  | refl => cases hp
  | tail hrun _ hst ih =>
    obtain ⟨a, ha⟩ := exists_account (hrun.tail trivial hst)
    have hne : n ≠ None := ValidCluster.ne_empty (ha.member hp)
    cases proc_step hst hp with
    | same hsame =>
      rw [hsame] at hp
      exact ih hp hown
    | boot rn hrn heq =>
      subst heq
      exact absurd (hown.symm.trans (newNode_leaderless hrn).1) hne
    | moved q i o out hin hq ho hx =>
      have hheard : ∀ term, i.leader ≠ some (p.node.leaderID, term) := fun term hl =>
        leader_elsewhere hrun hst hin hl hown
      have hh := Proc.handled ho hx
      cases hh.hint with
      | kept _ hleader _ =>
        have hlead := ih hq (hleader.symm.trans hown)
        rcases hh.stillLeads hlead hleader (by rw [← hleader, hown]; exact hne) with h | ⟨term, hl⟩
        · exact h
        · exact absurd hl (hheard term)
      | forgotten hnone _ => exact absurd (hown.symm.trans hnone) hne
      | won _ hlead _ => exact hlead
      | heard leaderID term hl _ hleader _ =>
        rw [← hleader] at hl
        exact absurd hl (hheard term)

theorem elected_term_le (hrun : Runs (System.step M c settings) Always System.init s) {term : ℕ}
    (helected : s.Elected n term) (hp : (s.hosts n).proc = some p) :
    term ≤ p.node.currentTerm := by
  obtain ⟨a, ha⟩ := exists_account hrun
  obtain ⟨snap, log, hob⟩ := helected
  obtain ⟨hquorum, hvotes⟩ := ha.valid.wins (ha.trace _ hob).1
  obtain ⟨w, hw, _⟩ := (Quorums c).meets hquorum hquorum
  obtain ⟨r, hr⟩ := ha.valid.votes.vote_candidacy (hvotes w hw)
  have hle := ha.valid.votes.candidacy_term hr
  rwa [(ha.related (ha.member hp) hp).2.1.node.term] at hle

/-- The node that is named leads, or names nobody, or is in a later term than the one that named
it. -/
theorem hints_climb (hrun : Runs (System.step M c settings) Always System.init s)
    (hp : (s.hosts n).proc = some p) (hknown : p.node.leaderID ≠ None)
    (hq : (s.hosts p.node.leaderID).proc = some q) :
    q.node.state = .leader ∨ q.node.leaderID = None ∨
      p.node.currentTerm < q.node.currentTerm := by
  have hhints := hinted_of_runs hrun
  have helected := hhints.known hp hknown
  rcases (elected_term_le hrun helected hq).lt_or_eq with hlt | heq
  · exact Or.inr (Or.inr hlt)
  by_cases hnone : q.node.leaderID = None
  · exact Or.inr (Or.inl hnone)
  · have hwon := hhints.known hq hnone
    rw [← heq] at hwon
    exact Or.inl (own_hint hrun hq (elected_unique hrun hwon helected))

end Raft
