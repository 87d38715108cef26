import RaftDB.RaftFollowerRelation

/-!
# Elections and the leader's side refine the protocol

A candidate wins with the votes of a quorum, an appended command extends the leader's log,
and what the commit rule counts is confirmed by a quorum. The messages of a round describe
the leader's log as it is.
-/
namespace Raft

open Storage ClusterConfig ReplicatedLog MajorityQuorum LogPrefix Function
open RaftNode hiding id

variable {D : Type} {c : ValidCluster} {fresh : Prop} {I : Snapshot D → Prop} {n : NodeId}
  {a a' : Abstract} {rn rn' : RaftNode D}

structure Configured (c : ValidCluster) (n : NodeId) (rn : RaftNode D) : Prop where
  member : n ∈ c.members
  named : rn.id = n
  peers : rn.peers = c.peerIDs n

/-- The majority a node computes from its peers is that of the configuration. -/
theorem Configured.quorum_eq (h : Configured c n rn) : rn.quorum = c.quorumSize := by
  rw [RaftNode.quorum, h.peers, ValidCluster.length_peerIDs h.member, Cluster.quorumSize]

theorem Configured.ne_none (h : Configured c n rn) : n ≠ "" := ValidCluster.ne_empty h.member

theorem Configured.isQuorum (h : Configured c n rn) {Q : Finset NodeId} (hQ : Q ⊆ c.members)
    (hq : rn.quorum ≤ Q.card) : (Quorums c).IsQuorum Q := by
  refine ⟨hQ, ?_⟩
  rw [← ValidCluster.quorumSize_eq, ← h.quorum_eq]
  exact hq

structure Elected (a : Abstract) (n : NodeId) (rn : RaftNode D) : Prop where
  winner : a.winner rn.currentTerm = some n
  inherited : a.inherited rn.currentTerm = a.chosen.take rn.log.base ++ rn.log.entries

/-- What a section may do on top of moving the node: win an election, or commit as leader. -/
structure Effects (fresh : Prop) (a : Abstract) (n : NodeId) (rn rn' : RaftNode D) : Prop where
  elected : rn.state ≠ .leader → rn'.state = .leader → Elected a n rn'
  committed : rn'.state = .leader → rn.commitIndex < rn'.commitIndex → fresh →
    ∃ cm ∈ a.commits, cm.term = rn'.currentTerm ∧ cm.pos + 1 = rn'.commitIndex

theorem Subdued.effects (h : Subdued rn rn') : Effects fresh a n rn rn' where
  elected hs hs' := absurd (h.leader hs').1 hs
  committed hs' hlt := by
    have := (h.leader hs').2
    omega

section Election

def standing (rn : RaftNode D) : RaftNode D :=
  { rn with
    state := .candidate
    currentTerm := rn.currentTerm + 1
    votedFor := rn.id
    leaderID := None
    votes := 1 }

theorem Related.stands (h : Related c fresh n a rn) (hc : Configured c n rn) :
    Simulates c fresh I n a rn (standing rn).persistLocked (a.stood n) (standing rn) := by
  have hterm : a.term n + 1 = rn.currentTerm + 1 := by rw [h.node.term]
  refine ⟨.single (.stand rn _), .single (.stand a n), ?_, h.indexed, ?_, h.unstale⟩
  · refine ⟨(update_self _ _ _).trans hterm, update_self _ _ _, ?_, h.node.base, h.node.commit,
      h.node.log, h.node.sentinel⟩
    change (a.stood n).voted n (rn.currentTerm + 1) = voteOf rn.id
    rw [hc.named, voteOf_eq hc.ne_none]
    simp only [State.stood, update₂_apply]
    exact if_pos ⟨trivial, hterm.symm⟩
  · rintro ⟨⟩

theorem Related.wins (h : Related c fresh n a rn) (hs : rn.state = .candidate)
    {Q : Finset NodeId} (hQ : (Quorums c).IsQuorum Q)
    (hv : ∀ w ∈ Q, a.voted w rn.currentTerm = some n) :
    Simulates c fresh I n a rn [] (a.elected n Q) rn.becomeLeaderLocked ∧
      Elected (a.elected n Q) n rn.becomeLeaderLocked := by
  have hrole : a.role n = .candidate := by
    rw [h.node.role, hs]
    rfl
  have hterm := h.node.term
  refine ⟨⟨becomeLeaderLocked_moves rn, .single (.elect a n Q hrole hQ ?_), ?_, ?_, ?_,
    h.unstale⟩, ?_⟩
  · rw [hterm]
    exact hv
  · exact ⟨hterm, update_self _ _ _, h.node.voted, h.node.base, h.node.commit, h.node.log,
      h.node.sentinel⟩
  · intro T i e he
    simp only [State.elected] at he
    by_cases hT : T = a.term n
    · rw [hT, update_self] at he
      exact h.node.index_eq h.valid h.indexed h.wf.numbered he
    · rw [update_of_ne hT] at he
      exact h.indexed he
  · exact fun _ _ => Or.inl (Nat.zero_le _)
  · refine ⟨?_, ?_⟩
    · change update a.winner (a.term n) (some n) rn.currentTerm = some n
      rw [← hterm, update_self]
    · change update a.inherited (a.term n) (a.log n) rn.currentTerm = _
      rw [← hterm, update_self]
      exact h.node.log

theorem Related.standing_voteRel (h : Related c fresh n a rn) (hc : Configured c n rn) :
    VoteRel (a.stood n)
      { term := rn.currentTerm + 1
        candidateID := rn.id
        lastLogIndex := rn.log.lastLogIndex
        lastLogTerm := rn.log.lastLogTerm } := by
  refine ⟨hc.named.symm ▸ hc.ne_none, ⟨a.log n, ∀ U, a.winner U ≠ none → U < a.term n + 1⟩, ?_,
    (h.node.length h.valid h.wf.numbered).symm, h.node.lastLogTerm h.valid h.wf.numbered⟩
  simp only [State.stood, update₂_apply]
  exact if_pos ⟨hc.named, by rw [h.node.term]⟩

/-- What a started election leaves: a leader if the own vote is a majority, and otherwise a
candidate with its own vote and a request for the others. -/
structure Started (c : ValidCluster) (a : Abstract) (n : NodeId) (rn rn' : RaftNode D)
    (out : Option RequestVoteArgs) : Prop where
  term : rn'.currentTerm = rn.currentTerm + 1
  candidate : rn'.state = .candidate → rn'.votes = 1
  own : a.voted n (rn.currentTerm + 1) = some n
  request : ∀ args, out = some args → args.term = rn.currentTerm + 1 ∧ args.candidateID = n ∧
    VoteRel a args

theorem Related.startElectionLocked (h : Related c fresh n a rn) (hc : Configured c n rn) :
    rn.startElectionLocked.Simulated c fresh I n a rn fun a' rn' out =>
      Effects fresh a' n rn rn' ∧ Started c a' n rn rn' out := by
  have hs := h.stands (I := I) hc
  have hrel := hs.related h
  have hown : (a.stood n).voted n (rn.currentTerm + 1) = some n := by
    rw [show rn.currentTerm + 1 = (standing rn).currentTerm from rfl, hs.node.voted]
    change voteOf rn.id = _
    rw [hc.named, voteOf_eq hc.ne_none]
  have hreq := h.standing_voteRel hc
  rw [RaftNode.startElectionLocked, startElectionIn]
  dsimp only
  split
  · rename_i hq
    have hQ : (Quorums c).IsQuorum {n} :=
      hc.isQuorum (Finset.singleton_subset_iff.mpr hc.member) hq
    have hv : ∀ w ∈ ({n} : Finset NodeId),
        (a.stood n).voted w (standing rn).currentTerm = some n := by
      intro w hw
      rw [Finset.mem_singleton.mp hw]
      exact hown
    obtain ⟨hwin, hel⟩ := hrel.wins (I := I) rfl hQ hv
    have hgrow := hwin.acts.grows hrel.valid
    rw [← List.append_nil (persistLocked _)]
    refine Outcome.simulated_done (hs.trans hwin) ⟨⟨fun _ _ => hel, ?_⟩, ?_⟩
    · intro _ hlt
      exact absurd hlt (lt_irrefl _)
    · exact ⟨rfl, by rintro ⟨⟩, hgrow.voted hown, by rintro _ ⟨⟩⟩
  · refine Outcome.simulated_done hs ⟨⟨by rintro _ ⟨⟩, by rintro ⟨⟩⟩, ?_⟩
    refine ⟨rfl, fun _ => rfl, hown, ?_⟩
    rintro args ⟨⟩
    exact ⟨rfl, hc.named, hreq⟩

structure Ballot (c : ValidCluster) (a : Abstract) (n : NodeId) (rn : RaftNode D)
    (Q : Finset NodeId) : Prop where
  members : Q ⊆ c.members
  counted : Q.card = rn.votes
  votes : ∀ w ∈ Q, a.voted w rn.currentTerm = some n

structure Counted (c : ValidCluster) (a : Abstract) (n peer : NodeId) (term : ℕ)
    (rn rn' : RaftNode D) : Prop where
  same : rn'.state = .candidate → rn.state = .candidate ∧ rn'.currentTerm = rn.currentTerm
  ballot : ∀ {Q}, rn'.state = .candidate → Ballot c a n rn Q →
    (rn.currentTerm = term → peer ∉ Q) → peer ∈ c.members →
    Ballot c a n rn' Q ∨ (rn.currentTerm = term ∧ Ballot c a n rn' (insert peer Q))

theorem Counted.of_subdued {peer : NodeId} {term : ℕ} (h : Subdued rn rn') :
    Counted c a n peer term rn rn' where
  same hs := ⟨(h.candidate hs).1, (h.candidate hs).2.1⟩
  ballot hs hb _ _ := by
    obtain ⟨_, hterm, hvotes⟩ := h.candidate hs
    exact Or.inl ⟨hb.members, by rw [hvotes]; exact hb.counted, by rw [hterm]; exact hb.votes⟩

theorem Ballot.add {Q : Finset NodeId} {peer : NodeId} (h : Ballot c a n rn Q) (hp : peer ∉ Q)
    (hm : peer ∈ c.members) (hv : a.voted peer rn.currentTerm = some n) :
    Ballot c a n { rn with votes := rn.votes + 1 } (insert peer Q) := by
  refine ⟨Finset.insert_subset hm h.members, ?_, ?_⟩
  · rw [Finset.card_insert_of_notMem hp, h.counted]
  · intro w hw
    rcases Finset.mem_insert.mp hw with rfl | hw
    · exact hv
    · exact h.votes w hw

theorem Related.handleRequestVoteReply (h : Related c fresh n a rn) (hc : Configured c n rn)
    {peer : NodeId} (hm : peer ∈ c.members) {term : ℕ} {reply : RequestVoteReply}
    (hgrant : reply.voteGranted = true → a.voted peer term = some n)
    (hq : rn.state = .candidate → rn.currentTerm = term →
      ∃ Q, Ballot c a n rn Q ∧ peer ∉ Q) :
    (rn.handleRequestVoteReply term reply).Simulated c fresh I n a rn fun a' rn' _ =>
      Effects fresh a' n rn rn' ∧ Counted c a' n peer term rn rn' := by
  have hself : Effects fresh a n rn rn ∧ Counted c a n peer term rn rn :=
    ⟨(Subdued.refl rn).effects, .of_subdued (.refl rn)⟩
  have hcases := rn.handleRequestVoteReply_cases term reply
  generalize rn.handleRequestVoteReply term reply = o at hcases ⊢
  have hcount : rn.state = .candidate →
      Simulates c fresh I n a rn [] a { rn with votes := rn.votes + 1 } := fun hstate =>
    ⟨.single (.volatile rn rn.state rn.leaderID _ rn.nextIndex rn.matchIndex), .refl n a,
      h.node.of_same rfl rfl rfl rfl rfl, h.indexed,
      fun hs => absurd (hstate.symm.trans hs) (by decide), h.unstale⟩
  have hvoted : rn.currentTerm = term → reply.voteGranted = true →
      a.voted peer rn.currentTerm = some n := by
    intro hterm hgr
    rw [hterm]
    exact hgrant hgr
  cases hcases with
  | ignored => exact Outcome.simulated_done h.simulates_self hself
  | deposed hlt =>
    exact h.steps_down hlt fun a' rn' hs =>
      ⟨(Subdued.of_follower hs).effects, .of_subdued (.of_follower hs)⟩
  | won hstate hterm hgr hquorum =>
    obtain ⟨Q, hb, hp⟩ := hq hstate hterm
    have hb' := hb.add hp hm (hvoted hterm hgr)
    have hQ : (Quorums c).IsQuorum (insert peer Q) :=
      hc.isQuorum hb'.members (hquorum.ge.trans hb'.counted.ge)
    obtain ⟨hwin, hel⟩ := ((hcount hstate).related h).wins (I := I) hstate hQ hb'.votes
    refine Outcome.simulated_done ((hcount hstate).trans hwin) ⟨⟨fun _ _ => hel, ?_⟩, ?_⟩
    · intro _ hlt
      exact absurd hlt (lt_irrefl _)
    · exact ⟨by rintro ⟨⟩, by rintro _ ⟨⟩⟩
  | counted hstate hterm hgr =>
    refine Outcome.simulated_done (hcount hstate) ⟨⟨?_, ?_⟩, ?_⟩
    · intro hs hs'
      exact absurd hs' hs
    · intro _ hlt
      exact absurd hlt (lt_irrefl _)
    · exact ⟨fun _ => ⟨hstate, rfl⟩, fun _ hb hp hmem =>
        Or.inr ⟨hterm, hb.add (hp hterm) hmem (hvoted hterm hgr)⟩⟩

end Election

section Commit

theorem Related.leads (h : Related c fresh n a rn) (hs : rn.state = .leader) :
    a.role n = .leader ∧ a.winner rn.currentTerm = some n ∧
      a.log n = a.leaderLog rn.currentTerm ∧
      a.confirmed n rn.currentTerm = (a.leaderLog rn.currentTerm).length := by
  have hrole : a.role n = .leader := by
    rw [h.node.role, hs]
    rfl
  have hl := (Invariant.roles h.valid n).leader hrole
  rw [h.node.term] at hl
  exact ⟨hrole, hl⟩

/-- The members that the commit rule counts for index `m`. -/
def holders (rn : RaftNode D) (n : NodeId) (m : ℕ) : Finset NodeId :=
  insert n (rn.peers.filter fun peer => m ≤ rn.matchIndex peer).toFinset

theorem Configured.holders_quorum (hc : Configured c n rn) {m : ℕ}
    (hq : rn.quorum ≤ rn.replicatedOn m) : (Quorums c).IsQuorum (holders rn n m) := by
  have hnodup : (rn.peers.filter fun peer => m ≤ rn.matchIndex peer).Nodup := by
    rw [hc.peers]
    exact ValidCluster.peerIDs_nodup.filter _
  have hpeers : ∀ w ∈ (rn.peers.filter fun peer => m ≤ rn.matchIndex peer).toFinset,
      w ∈ c.members ∧ w ≠ n := by
    intro w hw
    rw [List.mem_toFinset, List.mem_filter, hc.peers] at hw
    exact ValidCluster.mem_peerIDs.mp hw.1
  refine hc.isQuorum (Finset.insert_subset hc.member fun w hw => (hpeers w hw).1) ?_
  rw [holders, Finset.card_insert_of_notMem fun hn => (hpeers n hn).2 rfl,
    List.toFinset_card_of_nodup hnodup, Nat.add_comm]
  exact hq

theorem Related.advances (h : Related c fresh n a rn) (hc : Configured c n rn) :
    ∃ m a', rn.advanceCommitIndexLocked = .ok { rn with commitIndex := m } ∧
      Simulates c fresh I n a rn [] a' { rn with commitIndex := m } ∧
      (rn.commitIndex < m → fresh →
        ∃ cm ∈ a'.commits, cm.term = rn.currentTerm ∧ cm.pos + 1 = m) := by
  obtain ⟨m, heq, hcases⟩ := advanceCommitIndexLocked_cases h.wf.numbered h.wf.base_le
  rcases hcases with rfl | ⟨hs, hlt, hle, hterm, hq⟩
  · exact ⟨_, a, heq, h.simulates_self, fun hlt => absurd hlt (lt_irrefl _)⟩
  obtain ⟨hrole, _, hlog, hconf⟩ := h.leads hs
  have hlen := h.node.length h.valid h.wf.numbered
  obtain ⟨i, rfl⟩ : ∃ i, m = i + 1 := ⟨m - 1, by omega⟩
  have hx : (a.log n)[i]? = some ((a.log n).get ⟨i, by omega⟩) := List.getElem?_eq_getElem (by omega)
  have hown : Own LogEntry.term a (a.term n) i := by
    refine ⟨_, by rw [h.node.term, ← hlog]; exact hx, ?_⟩
    rw [h.node.termAt h.valid h.wf.numbered (h.wf.base_le.trans hlt.le) hle, termBefore, hx] at hterm
    rw [h.node.term]
    exact Option.some.inj hterm
  -- everyone counted has confirmed the position: a match below the commit index is too low
  have hholders : ∀ w ∈ holders rn n (i + 1), i < a.confirmed w (a.term n) := by
    intro w hw
    rw [h.node.term]
    rcases Finset.mem_insert.mp hw with rfl | hw
    · rw [hconf, ← hlog]
      omega
    · rw [List.mem_toFinset, List.mem_filter] at hw
      have hm : i + 1 ≤ rn.matchIndex w := of_decide_eq_true hw.2
      rcases h.matched hs w with hcf | hcm <;> omega
  obtain ⟨a', hstep, hres⟩ := Invariant.leader_commits h.valid hrole
    (by rw [h.node.commit]; omega) (hc.holders_quorum hq) hholders hown
  have hg := hstep.grows h.valid
  have hmoves : Moves I rn [] { rn with commitIndex := i + 1 } :=
    .single (.commit rn (i + 1) hlt.le hle)
  have hchosen : a'.chosen.take rn.log.base = a.chosen.take rn.log.base :=
    take_of_isPrefix hg.chosen (h.node.base_le h.valid)
  have hsent : rn.log.sentinel.term = termBefore LogEntry.term a'.chosen rn.log.base := by
    rw [termBefore_of_isPrefix hg.chosen (h.node.base_le h.valid)]
    exact h.node.sentinel
  have hmatched : Matched a' { rn with commitIndex := i + 1 } := fun _ peer =>
    (h.matched hs peer).imp (fun hm => hm.trans (hg.confirmed peer _))
      fun hm => hm.trans hlt.le
  rcases hres with rfl | ⟨hstale, rfl⟩
  · refine ⟨i + 1, _, heq, ⟨hmoves, .single hstep, ?_, h.indexed, hmatched, h.unstale⟩, ?_⟩
    · refine ⟨h.node.term, h.node.role, h.node.voted, h.node.base, update_self _ _ _, ?_, hsent⟩
      rw [hchosen]
      exact h.node.log
    · exact fun _ _ => ⟨_, Set.mem_insert _ _, h.node.term, rfl⟩
  · refine ⟨i + 1, _, heq, ⟨hmoves, .single hstep, ?_, h.indexed, hmatched, h.unstale⟩, ?_⟩
    · exact ⟨h.node.term, h.node.role, h.node.voted, h.node.base, update_self _ _ _, h.node.log,
        h.node.sentinel⟩
    · exact fun _ hf => absurd hstale (h.unstale hf)

structure Steady (fresh : Prop) (a : Abstract) (n : NodeId) (rn rn' : RaftNode D) : Prop where
  effects : Effects fresh a n rn rn'
  candidate : rn'.state = .candidate → rn.state = .candidate ∧
    rn'.currentTerm = rn.currentTerm ∧ rn'.votes = rn.votes

theorem Subdued.steady (h : Subdued rn rn') : Steady fresh a n rn rn' :=
  ⟨h.effects, h.candidate⟩

theorem Steady.of_advance {m : ℕ} (hs : rn.state = .leader) (hs' : rn'.state = .leader)
    (hterm : rn'.currentTerm = rn.currentTerm) (hcommit : rn'.commitIndex = m)
    (h : rn.commitIndex < m → fresh →
      ∃ cm ∈ a.commits, cm.term = rn.currentTerm ∧ cm.pos + 1 = m) :
    Steady fresh a n rn rn' := by
  refine ⟨⟨fun hne => absurd hs hne, fun _ hlt hf => ?_⟩, fun hcand => ?_⟩
  · rw [hcommit] at hlt
    rw [hcommit, hterm]
    exact h hlt hf
  · rw [hs'] at hcand
    cases hcand

theorem Related.proposes (h : Related c fresh n a rn) (hs : rn.state = .leader)
    (command : List UInt8) :
    Simulates c fresh I n a rn
      (rn.appendLogLocked [⟨rn.currentTerm, rn.log.lastLogIndex + 1, command⟩]).2
      (a.proposed n ⟨rn.currentTerm, rn.log.lastLogIndex + 1, command⟩)
      (rn.appendLogLocked [⟨rn.currentTerm, rn.log.lastLogIndex + 1, command⟩]).1 := by
  obtain ⟨hrole, _, hlog, _⟩ := h.leads hs
  have hlen := h.node.length h.valid h.wf.numbered
  have hacts : ActsAs c n a
      (a.proposed n ⟨rn.currentTerm, rn.log.lastLogIndex + 1, command⟩) :=
    .single (.propose a n _ hrole h.node.term.symm)
  have hg := hacts.grows h.valid
  refine ⟨.single (.append rn _ ⟨rfl, trivial⟩), hacts, ?_, ?_, ?_, h.unstale⟩
  · refine ⟨h.node.term, h.node.role, h.node.voted, h.node.base, h.node.commit, ?_,
      h.node.sentinel⟩
    refine proposed_log_self.trans ?_
    rw [h.node.log, List.append_assoc]
    rfl
  · intro T i e he
    by_cases hT : T = a.term n
    · rw [hT, proposed_leaderLog_self] at he
      rcases getElem?_concat he with he | ⟨rfl, rfl⟩
      · exact h.node.index_eq h.valid h.indexed h.wf.numbered he
      · rw [hlen]
    · rw [proposed_leaderLog_of_ne hT] at he
      exact h.indexed he
  · exact fun hl peer => (h.matched hs peer).imp_left fun hm => hm.trans (hg.confirmed peer _)

theorem Related.propose (h : Related c fresh n a rn) (hc : Configured c n rn)
    (command : List UInt8) :
    (rn.propose command).Simulated c fresh I n a rn fun a' rn' _ =>
      Steady fresh a' n rn rn' := by
  rw [RaftNode.propose, RaftNode.proposeAt]
  by_cases hs : rn.state = .leader
  · rw [if_neg (by simp [hs])]
    dsimp only
    have happ := h.proposes (I := I) hs command
    have hc' : Configured c n
        (rn.appendLogLocked [⟨rn.currentTerm, rn.log.lastLogIndex + 1, command⟩]).1 :=
      ⟨hc.member, hc.named, hc.peers⟩
    obtain ⟨m, a', hadv, hsim, hcm⟩ := (happ.related h).advances (I := I) hc'
    rw [hadv, ← List.append_nil (appendLogLocked _ _).2]
    exact Outcome.simulated_done (happ.trans hsim) (.of_advance hs hs rfl rfl hcm)
  · rw [if_pos hs]
    exact Outcome.simulated_done h.simulates_self (Subdued.refl rn).steady

theorem Matched.learn (h : Matched a rn) {peer : NodeId} {m : ℕ}
    (hm : m ≤ a.confirmed peer rn.currentTerm ∨ m ≤ rn.commitIndex) (next : NodeId → ℕ) :
    Matched a { rn with nextIndex := next, matchIndex := update rn.matchIndex peer m } := by
  intro hs p
  change update rn.matchIndex peer m p ≤ _ ∨ update rn.matchIndex peer m p ≤ _
  by_cases hp : p = peer
  · rw [hp, update_self]
    exact hm
  · rw [update_of_ne hp]
    exact h hs p

theorem Related.guesses (h : Related c fresh n a rn) {next matched : NodeId → ℕ}
    (hm : Matched a { rn with nextIndex := next, matchIndex := matched }) :
    Simulates c fresh I n a rn [] a { rn with nextIndex := next, matchIndex := matched } :=
  ⟨.single (.volatile rn rn.state rn.leaderID rn.votes next matched), .refl n a,
    h.node.of_same rfl rfl rfl rfl rfl, h.indexed, hm, h.unstale⟩

theorem Related.handleAppendEntriesReply (h : Related c fresh n a rn) (hc : Configured c n rn)
    {peer : NodeId} {term : ℕ} {args : AppendEntriesArgs} {reply : AppendEntriesReply}
    (hsuccess : reply.success = true →
      args.prevLogIndex + args.entries.length ≤ a.confirmed peer term) :
    (rn.handleAppendEntriesReply peer term args reply).Simulated c fresh I n a rn
      fun a' rn' _ => Steady fresh a' n rn rn' := by
  have hcases := rn.handleAppendEntriesReply_cases peer term args reply
  generalize rn.handleAppendEntriesReply peer term args reply = o at hcases ⊢
  cases hcases with
  | ignored => exact Outcome.simulated_done h.simulates_self (Subdued.refl rn).steady
  | deposed hlt => exact h.steps_down hlt fun a' rn' hs => (Subdued.of_follower hs).steady
  | confirmed htakes hsucc _ hadv =>
    have hconf : args.prevLogIndex + args.entries.length ≤ a.confirmed peer rn.currentTerm := by
      rw [htakes.same]
      exact hsuccess hsucc
    have hsim := h.guesses (I := I) (h.matched.learn (Or.inl hconf)
      (update rn.nextIndex peer (args.prevLogIndex + args.entries.length + 1)))
    obtain ⟨m, a', hok, hadvSim, hcm⟩ := (hsim.related h).advances (I := I)
      ⟨hc.member, hc.named, hc.peers⟩
    cases hok.symm.trans hadv
    exact Outcome.simulated_done (hsim.trans hadvSim)
      (.of_advance htakes.leads htakes.leads rfl rfl hcm)
  | panicked hadv =>
    have hwf : (rn.caughtUpTo peer (args.prevLogIndex + args.entries.length)).Wf :=
      ⟨h.wf.numbered, h.wf.base_le, h.wf.commit_le⟩
    obtain ⟨m, hok, _⟩ := advanceCommitIndexLocked_cases hwf.numbered hwf.base_le
    cases hok.symm.trans hadv
  | rejected htakes _ =>
    exact Outcome.simulated_done (h.guesses h.matched)
      (Steady.of_advance htakes.leads htakes.leads rfl rfl fun hlt => absurd hlt (lt_irrefl _))

theorem Related.handleInstallSnapshotReply (h : Related c fresh n a rn) {peer : NodeId}
    {term : ℕ} {args : InstallSnapshotArgs D} {reply : InstallSnapshotReply}
    (hknown : rn.state = .leader → rn.currentTerm = term →
      args.lastIncludedIndex ≤ rn.commitIndex) :
    (rn.handleInstallSnapshotReply peer term args reply).Simulated c fresh I n a rn
      fun a' rn' _ => Steady fresh a' n rn rn' := by
  have hcases := rn.handleInstallSnapshotReply_cases peer term args reply
  generalize rn.handleInstallSnapshotReply peer term args reply = o at hcases ⊢
  cases hcases with
  | ignored => exact Outcome.simulated_done h.simulates_self (Subdued.refl rn).steady
  | deposed hlt => exact h.steps_down hlt fun a' rn' hs => (Subdued.of_follower hs).steady
  | caughtUp htakes _ =>
    have hle := hknown htakes.leads htakes.same
    exact Outcome.simulated_done (h.guesses (h.matched.learn (Or.inr hle) _))
      (Steady.of_advance htakes.leads htakes.leads rfl rfl fun hlt => absurd hlt (lt_irrefl _))

end Commit

section Round

theorem Related.outboundTo (h : Related c fresh n a rn) (hs : rn.state = .leader)
    {peer target : NodeId} {args : AppendEntriesArgs}
    (ho : rn.outboundTo rn.currentTerm peer = some (.append target args)) :
    target = peer ∧ AppendRel a args := by
  obtain ⟨_, hwin, hlog, _⟩ := h.leads hs
  have hn := h.wf.numbered
  have hlen := h.node.length h.valid hn
  rw [RaftNode.outboundTo] at ho
  dsimp only at ho
  split at ho
  · cases ho
  rename_i hb
  have hb := not_le.mp hb
  split at ho
  · rename_i prevTerm entries hprev hent
    cases ho
    refine ⟨rfl, ?_⟩
    have hle : rn.nextIndex peer - 1 ≤ rn.log.lastLogIndex := by
      rw [RaftLog.termAt, uint64Sub_of_le (by omega)] at hprev
      obtain ⟨x, hx, _⟩ := Option.map_eq_some_iff.mp hprev
      have := lt_of_getElem? hx
      rw [RaftLog.slots, List.length_cons] at this
      rw [hn.lastLogIndex_eq]
      omega
    have hdrop : entries = (a.leaderLog rn.currentTerm).drop (rn.nextIndex peer - 1) := by
      rw [hn.entriesFrom_eq hb (by omega)] at hent
      rw [← Option.some.inj hent, ← hlog, h.node.drop h.valid (by omega)]
      congr 1
      omega
    rw [h.node.termAt h.valid hn (by omega) hle] at hprev
    refine ⟨by simp [hwin], ?_, ?_, ?_, ?_, ?_, ?_⟩
    · change rn.nextIndex peer - 1 + entries.length ≤ (a.leaderLog rn.currentTerm).length
      rw [hdrop, List.length_drop, ← hlog]
      omega
    · change entries = _
      rw [← hdrop]
      exact (List.take_length).symm
    · rw [← hlog]
      exact (Option.some.inj hprev).symm
    · rw [← hlog, hlen]
      exact h.wf.commit_le
    · rw [← hlog, ← h.node.commit]
      exact (Invariant.logs h.valid n).commit_chosen
    · by_cases hst : a.stale
      · exact Or.inl hst
      · have := Invariant.fresh_cover h.valid hst n
        rw [h.node.term, h.node.commit] at this
        exact Or.inr this
  · cases ho

theorem replicationRound_error {term : ℕ} {e : Panic} (h : rn.replicationRound term = .error e) :
    e.refusal = false := by
  rw [RaftNode.replicationRound] at h
  split at h
  · cases h
  split at h
  · cases h
    rfl
  · cases h

theorem Related.replicationRound (h : Related c fresh n a rn) {term : ℕ} {msgs : List Outbound}
    (hr : rn.replicationRound term = .ok msgs) :
    ∀ m ∈ msgs, match m with
      | .append peer args => peer ∈ rn.peers ∧ AppendRel a args
      | .snapshot peer => peer ∈ rn.peers := by
  intro m hm
  obtain ⟨hs, rfl, peer, hp, hout⟩ := replicationRound_mem hr hm
  cases m with
  | append target args =>
    obtain ⟨rfl, hrel⟩ := h.outboundTo hs hout
    exact ⟨hp, hrel⟩
  | snapshot target =>
    rw [outboundTo_snapshot hout]
    exact hp

end Round

end Raft
