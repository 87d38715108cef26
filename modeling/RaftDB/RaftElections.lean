import RaftDB.RaftSafety
import RaftDB.RaftVotes

/-!
# One leader per term, with crashes anywhere

A crash may also fall inside a locked section, behind some of its durable writes; the result of the
section is then lost. A ledger records for which candidate each node has voted in each term. Every
hard state on a disk agrees with it, votes are only ever added to it, and whoever becomes leader has
a majority in it.
-/
namespace Raft

open Storage ClusterConfig MajorityQuorum LogPrefix TransitionSystem Function
open RaftNode hiding id

variable {σ D : Type}

section Model

/-- An event, or one whose section a crash cuts off behind so many of its durable writes. -/
inductive CutEvent (D : Type) where
  | whole (e : Event D)
  | cut (e : Event D) (written : ℕ)

/-- The cluster, with all who have ever entered the leader state and in which term. -/
structure Elections (σ D : Type) where
  system : System σ D
  entered : List (NodeId × ℕ)

def System.sectionOf (M : StateMachine σ D) (s : System σ D) (e : Event D) :
    Option (NodeId × Proc σ D × StepOutcome σ D) :=
  (s.inputOf e).bind fun x => (s.hosts x.1).proc.bind fun p =>
    (p.handle M x.2).map fun o => (x.1, p, o)

def StepOutcome.wins (p : Proc σ D) (o : StepOutcome σ D) : List ℕ :=
  match o.process with
  | none => []
  | some p' =>
    if p.node.state ≠ .leader ∧ p'.node.state = .leader then [p'.node.currentTerm] else []

def System.winners (M : StateMachine σ D) (s : System σ D) (e : Event D) : List (NodeId × ℕ) :=
  match s.sectionOf M e with
  | none => []
  | some (n, p, o) => (o.wins p).map fun T => (n, T)

def Elections.init : Elections σ D := ⟨System.init, []⟩

/-- A section makes its node a leader behind all of its writes. -/
def Elections.step (M : StateMachine σ D) (c : ValidCluster) (settings : NodeId → Config)
    (v : Elections σ D) : CutEvent D → Option (Elections σ D)
  | .whole e =>
    match v.system.step M c settings e with
    | none => none
    | some s => some ⟨s, v.entered ++ v.system.winners M e⟩
  | .cut e written =>
    match v.system.step M c settings e, v.system.sectionOf M e with
    | some _, some (n, p, o) =>
      let h := v.system.hosts n
      some ⟨{ v.system with
          hosts := Function.update v.system.hosts n
            ⟨h.disk.writeAll (o.writes.take written), h.incarnation, none⟩ },
        v.entered ++ (if o.writes.length ≤ written then o.wins p else []).map fun T => (n, T)⟩
    | _, _ => none

end Model

section Campaigns

variable {M : StateMachine σ D} {p p' : Proc σ D} {rn rn' : RaftNode D} {i : Input D}
  {out : Output D}

structure Abstains (rn rn' : RaftNode D) : Prop where
  candidate : rn'.state = .candidate → rn.state = .candidate ∧
    rn'.currentTerm = rn.currentTerm ∧ rn'.votes = rn.votes
  leader : rn'.state = .leader → rn.state = .leader ∧ rn'.currentTerm = rn.currentTerm

theorem Abstains.kept (hs : rn'.state = rn.state) (ht : rn'.currentTerm = rn.currentTerm)
    (hv : rn'.votes = rn.votes) : Abstains rn rn' :=
  ⟨fun h => ⟨hs.symm.trans h, ht, hv⟩, fun h => ⟨hs.symm.trans h, ht⟩⟩

theorem Abstains.of_follower (h : rn'.state = .follower) : Abstains rn rn' := by
  constructor <;>
  · intro hs
    rw [h] at hs
    cases hs

theorem Abstains.inTerm (rn : RaftNode D) (term : ℕ) : Abstains rn (rn.inTerm term) := by
  rw [RaftNode.inTerm]
  split
  · exact .of_follower rfl
  · exact .kept rfl rfl rfl

inductive Campaign (rn rn' : RaftNode D) : Input D → Output D → Prop where
  | steady {i : Input D} {out : Output D} : Abstains rn rn' → (∀ args, out ≠ .requestVotes args) →
      Campaign rn rn' i out
  | stands {args : RequestVoteArgs} : rn'.state = .candidate →
      rn'.currentTerm = rn.currentTerm + 1 → rn'.votedFor = rn.id → rn'.votes = 1 →
      args.term = rn'.currentTerm → args.candidateID = rn.id →
      Campaign rn rn' .electionTimeout (.requestVotes args)
  | standsAlone : rn.state ≠ .leader → rn'.state = .leader →
      rn'.currentTerm = rn.currentTerm + 1 → rn'.votedFor = rn.id → rn.quorum ≤ 1 →
      Campaign rn rn' .electionTimeout .quiet
  | counts {term : ℕ} {reply : RequestVoteReply} : rn.state = .candidate →
      rn.currentTerm = term → reply.voteGranted = true → rn'.currentTerm = rn.currentTerm →
      rn'.votes = rn.votes + 1 → (rn'.state = .leader → rn.quorum ≤ rn.votes + 1) →
      Campaign rn rn' (.voteReply term reply) .quiet

theorem startElectionLocked_campaign {r : Option RequestVoteArgs} (hs : rn.state ≠ .leader)
    (h : rn.startElectionLocked.result = .ok (rn', r)) :
    Campaign rn rn' .electionTimeout (.ofElection r) := by
  rw [startElectionLocked, startElectionIn] at h
  dsimp only at h
  split at h
  · rename_i hq
    cases h
    exact .standsAlone hs rfl rfl rfl hq
  · cases h
    exact .stands rfl rfl rfl rfl rfl rfl

theorem handleRequestVoteReply_campaign {term : ℕ} {reply : RequestVoteReply} {u : Unit}
    (h : (rn.handleRequestVoteReply term reply).result = .ok (rn', u)) :
    Campaign rn rn' (.voteReply term reply) .quiet := by
  have hcases := rn.handleRequestVoteReply_cases term reply
  generalize rn.handleRequestVoteReply term reply = o at h hcases
  cases hcases with
  | ignored =>
    cases h
    exact .steady (.kept rfl rfl rfl) (by rintro _ ⟨⟩)
  | deposed =>
    cases h
    refine .steady (.of_follower ?_) (by rintro _ ⟨⟩)
    rw [becomeFollowerLocked]
    split <;> rfl
  | counted hcand hterm hgrant =>
    cases h
    refine .counts hcand hterm hgrant rfl rfl fun hlead => ?_
    rw [show rn.state = .leader from hlead] at hcand
    cases hcand
  | won hcand hterm hgrant hq =>
    cases h
    exact .counts hcand hterm hgrant rfl rfl fun _ => hq.ge

theorem Abstains.handleAppendEntriesReply {peer : NodeId} {term : ℕ} {args : AppendEntriesArgs}
    {reply : AppendEntriesReply} {u : Unit}
    (h : (rn.handleAppendEntriesReply peer term args reply).result = .ok (rn', u)) :
    Abstains rn rn' := by
  have hcases := rn.handleAppendEntriesReply_cases peer term args reply
  generalize rn.handleAppendEntriesReply peer term args reply = o at h hcases
  cases hcases with
  | ignored =>
    cases h
    exact .kept rfl rfl rfl
  | deposed =>
    cases h
    refine .of_follower ?_
    rw [becomeFollowerLocked]
    split <;> rfl
  | confirmed _ _ _ hadv =>
    cases h
    obtain ⟨n, rfl⟩ := advanceCommitIndexLocked_frame hadv
    exact .kept rfl rfl rfl
  | panicked => cases h
  | rejected =>
    cases h
    exact .kept rfl rfl rfl

theorem Abstains.handleInstallSnapshotReply {peer : NodeId} {term : ℕ}
    {args : InstallSnapshotArgs D} {reply : InstallSnapshotReply} {u : Unit}
    (h : (rn.handleInstallSnapshotReply peer term args reply).result = .ok (rn', u)) :
    Abstains rn rn' := by
  have hcases := rn.handleInstallSnapshotReply_cases peer term args reply
  generalize rn.handleInstallSnapshotReply peer term args reply = o at h hcases
  cases hcases with
  | ignored =>
    cases h
    exact .kept rfl rfl rfl
  | deposed =>
    cases h
    refine .of_follower ?_
    rw [becomeFollowerLocked]
    split <;> rfl
  | caughtUp =>
    cases h
    exact .kept rfl rfl rfl

theorem Proc.Handled.campaign (h : p.Handled M i p' out) : Campaign p.node p'.node i out := by
  cases h with
  | started | resumed | stopped | replicated =>
    exact .steady (.kept rfl rfl rfl) (by rintro _ ⟨⟩)
  | stood hs hres => exact startElectionLocked_campaign hs hres
  | proposed hres =>
    obtain ⟨log, n, rfl, _⟩ := proposeAt_frame hres
    exact .steady (.kept rfl rfl rfl) (by rintro _ ⟨⟩)
  | voted hres =>
    refine .steady ?_ (by rintro _ ⟨⟩)
    rcases handleRequestVote_frame hres with rfl | ⟨vote, rfl⟩
    · exact .kept rfl rfl rfl
    · exact ⟨(Abstains.inTerm p.node _).candidate, (Abstains.inTerm p.node _).leader⟩
  | appended hres =>
    refine .steady ?_ (by rintro _ ⟨⟩)
    rcases handleAppendEntries_frame hres with rfl | ⟨_, log, n, rfl, _⟩
    · exact .kept rfl rfl rfl
    · exact .of_follower rfl
  | installed hres =>
    refine .steady ?_ (by rintro _ ⟨⟩)
    rcases handleInstallSnapshot_frame hres with rfl | ⟨_, log, n, pending, rfl, _⟩
    · exact .kept rfl rfl rfl
    · exact .of_follower rfl
  | voteReply hres => exact handleRequestVoteReply_campaign hres
  | appendReply hres => exact .steady (.handleAppendEntriesReply hres) (by rintro _ ⟨⟩)
  | snapshotReply hres => exact .steady (.handleInstallSnapshotReply hres) (by rintro _ ⟨⟩)
  | applier ho hx =>
    obtain ⟨⟨log, applied, pending, heq⟩, hsilent⟩ := applier_spec ho hx
    refine .steady ?_ fun args hout => ?_
    · rw [heq]
      exact .kept rfl rfl rfl
    · rw [hout] at hsilent
      exact hsilent

end Campaigns

section Ledgers

/-- For whom each node has voted in each term. -/
abbrev Ledger := NodeId → ℕ → Option NodeId

namespace Ledger

variable {L L' : Ledger} {c : ValidCluster} {n m : NodeId} {hs hs' : HardState} {T : ℕ}
  {rn : RaftNode D} {Q : Finset NodeId}

/-- The hard state tells the vote of its term, and no later vote has been cast. -/
structure Agrees (L : Ledger) (n : NodeId) (hs : HardState) : Prop where
  current : L n hs.currentTerm = voteOf hs.votedFor
  later : ∀ {T}, hs.currentTerm < T → L n T = none

def enter (L : Ledger) (n : NodeId) (hs : HardState) : Ledger :=
  update L n (update (L n) hs.currentTerm (voteOf hs.votedFor))

def Keeps (L L' : Ledger) : Prop := ∀ n T m, L n T = some m → L' n T = some m

theorem Agrees.enter (h : L.Agrees n hs) (hp : hs.Precedes hs') :
    (L.enter n hs').Agrees n hs' := by
  constructor
  · rw [Ledger.enter, update_self, update_self]
  · intro T hT
    rw [Ledger.enter, update_self, update_of_ne hT.ne']
    exact h.later (hp.term_le.trans_lt hT)

theorem Agrees.other (h : L.Agrees m hs) (hm : m ≠ n) : (L.enter n hs').Agrees m hs := by
  constructor
  · rw [Ledger.enter, update_of_ne hm]
    exact h.current
  · intro T hT
    rw [Ledger.enter, update_of_ne hm]
    exact h.later hT

/-- A vote that has been cast is never overwritten. -/
theorem Agrees.keeps (h : L.Agrees n hs) (hp : hs.Precedes hs') : L.Keeps (L.enter n hs') := by
  intro v T m hv
  rw [Ledger.enter]
  by_cases hvn : v = n
  · rw [hvn] at hv ⊢
    rw [update_self]
    by_cases hT : T = hs'.currentTerm
    · rw [hT] at hv ⊢
      rw [update_self]
      rcases hp with hlt | ⟨heq, hopen | hsame⟩
      · rw [h.later hlt] at hv
        cases hv
      · rw [← heq, h.current, hopen] at hv
        cases hv
      · rw [hsame, ← h.current, heq]
        exact hv
    · rw [update_of_ne hT]
      exact hv
  · rw [update_of_ne hvn]
    exact hv

theorem enter_own (hv : hs.votedFor = n) (hn : n ≠ "") :
    L.enter n hs n hs.currentTerm = some n := by
  rw [enter, update_self, update_self, hv, voteOf_eq hn]

def Elects (L : Ledger) (c : ValidCluster) (n : NodeId) (T : ℕ) : Prop :=
  ∃ Q, (Quorums c).IsQuorum Q ∧ ∀ w ∈ Q, L w T = some n

theorem Elects.mono (h : L.Elects c n T) (hk : L.Keeps L') : L'.Elects c n T := by
  obtain ⟨Q, hQ, hv⟩ := h
  exact ⟨Q, hQ, fun w hw => hk _ _ _ (hv w hw)⟩

theorem Elects.unique (h : L.Elects c n T) (h' : L.Elects c m T) : n = m := by
  obtain ⟨Q, hQ, hv⟩ := h
  obtain ⟨Q', hQ', hv'⟩ := h'
  obtain ⟨w, hw, hw'⟩ := (Quorums c).meets hQ hQ'
  exact Option.some.inj ((hv w hw).symm.trans (hv' w hw'))

/-- The votes that a candidate has counted so far. -/
structure Tally (L : Ledger) (c : ValidCluster) (n : NodeId) (rn : RaftNode D)
    (Q : Finset NodeId) : Prop where
  members : Q ⊆ c.members
  counted : Q.card = rn.votes
  votes : ∀ w ∈ Q, L w rn.currentTerm = some n

theorem Tally.mono (h : L.Tally c n rn Q) (hk : L.Keeps L') : L'.Tally c n rn Q :=
  ⟨h.members, h.counted, fun w hw => hk _ _ _ (h.votes w hw)⟩

end Ledger

end Ledgers

section Invariant

variable {M : StateMachine σ D} {c : ValidCluster} {settings : NodeId → Config}
  {s t : System σ D} {n : NodeId} {p p' : Proc σ D} {i : Input D} {o : StepOutcome σ D}
  {out : Output D} {won : List (NodeId × ℕ)} {L : Ledger} {answered : List ℕ}

def Host.hardState (h : Host σ D) : HardState := h.disk.hardState.getD ⟨0, None⟩

theorem Host.hardState_writeAll (h : Host σ D) (ws : List (StoreWrite D)) (incarnation : ℕ)
    (proc : Option (Proc σ D)) :
    Host.hardState ⟨h.disk.writeAll ws, incarnation, proc⟩ =
      (hardStates ws).getLast?.getD h.hardState := by
  rw [Host.hardState, writeAll_hardState, Host.hardState]
  cases (hardStates ws).getLast? <;> rfl

structure Asks (c : ValidCluster) (hs : HardState) (call : Call D) (args : RequestVoteArgs) :
    Prop where
  caller : call.caller ∈ c.members
  callee : call.callee ∈ c.members
  distinct : call.callee ≠ call.caller
  candidate : args.candidateID = call.caller
  term : args.term ≤ hs.currentTerm

structure Balloted (c : ValidCluster) (s : System σ D) (won : List (NodeId × ℕ)) (L : Ledger) :
    Prop where
  recorded : ∀ n, L.Agrees n (s.hosts n).hardState
  live : ∀ {n p}, (s.hosts n).proc = some p →
    Configured c n p.node ∧ p.node.hardState = (s.hosts n).hardState
  candidates : ∀ {n p}, (s.hosts n).proc = some p → p.node.state = .candidate →
    ∃ Q, L.Tally c n p.node Q ∧ Answered s.calls s.answered n p.node.currentTerm Q
  leaders : ∀ {n p}, (s.hosts n).proc = some p → p.node.state = .leader →
    (n, p.node.currentTerm) ∈ won
  elected : ∀ {n T}, (n, T) ∈ won → L.Elects c n T
  requests : ∀ call ∈ s.calls, ∀ args, call.request = .vote args →
    Asks c (s.hosts call.caller).hardState call args
  one_vote : s.calls.Pairwise fun x y => ¬SameVote x y
  granted : ∀ {k reply}, (k, .vote reply) ∈ s.replies → reply.voteGranted = true →
    ∃ call args, s.calls[k]? = some call ∧ call.request = .vote args ∧
      L call.callee args.term = some args.candidateID

theorem Balloted.init : Balloted c (System.init : System σ D) [] fun _ _ => none :=
  ⟨fun _ => ⟨rfl, fun _ => rfl⟩, by rintro _ _ ⟨⟩, by rintro _ _ ⟨⟩, by rintro _ _ ⟨⟩,
    by rintro _ _ ⟨⟩, by rintro _ ⟨⟩, .nil, by rintro _ _ ⟨⟩⟩

theorem Balloted.absorb (h : Balloted c s won L) {host : Host σ D} {calls : List (Call D)}
    {tasks : List Task} {trace : List (Observation D)} {wins : List ℕ}
    (hprec : (s.hosts n).hardState.Precedes host.hardState)
    (hlive : ∀ {p}, host.proc = some p →
      Configured c n p.node ∧ p.node.hardState = host.hardState)
    (hsub : s.answered ⊆ answered) (hcaller : ∀ call ∈ calls, call.caller = n)
    (hasks : ∀ call ∈ calls, ∀ args, call.request = .vote args →
      Asks c host.hardState call args)
    (hone : (s.calls ++ calls).Pairwise fun x y => ¬SameVote x y)
    (hcand : ∀ {p}, host.proc = some p → p.node.state = .candidate →
      ∃ Q, (L.enter n host.hardState).Tally c n p.node Q ∧
        Answered (s.calls ++ calls) answered n p.node.currentTerm Q)
    (hlead : ∀ {p}, host.proc = some p → p.node.state = .leader →
      (n, p.node.currentTerm) ∈ won ∨ p.node.currentTerm ∈ wins)
    (hwins : ∀ T ∈ wins, (L.enter n host.hardState).Elects c n T) :
    Balloted c { s with
        hosts := update s.hosts n host
        calls := s.calls ++ calls
        answered := answered
        tasks := tasks
        trace := trace } (won ++ wins.map fun T => (n, T)) (L.enter n host.hardState) := by
  have hkeeps := (h.recorded n).keeps hprec
  have helected : ∀ {m T}, (m, T) ∈ won ++ wins.map (fun T => (n, T)) →
      (L.enter n host.hardState).Elects c m T := by
    intro m T hx
    rcases List.mem_append.mp hx with hx | hx
    · exact (h.elected hx).mono hkeeps
    · obtain ⟨T', hT, heq⟩ := List.mem_map.mp hx
      cases heq
      exact hwins T hT
  refine ⟨?_, ?_, ?_, ?_, helected, ?_, hone, ?_⟩ <;> dsimp only
  · intro m
    by_cases hm : m = n
    · rw [hm, update_self]
      exact (h.recorded n).enter hprec
    · rw [update_of_ne hm]
      exact (h.recorded m).other hm
  · intro m q hq
    by_cases hm : m = n
    · rw [hm, update_self] at hq ⊢
      exact hlive hq
    · rw [update_of_ne hm] at hq ⊢
      exact h.live hq
  · intro m q hq hs
    by_cases hm : m = n
    · rw [hm, update_self] at hq
      rw [hm]
      exact hcand hq hs
    · rw [update_of_ne hm] at hq
      obtain ⟨Q, hQ, hans⟩ := h.candidates hq hs
      refine ⟨Q, hQ.mono hkeeps, hans.append hsub fun call hc hcm => ?_⟩
      exact absurd (hcm.symm.trans (hcaller call hc)) hm
  · intro m q hq hs
    rw [List.mem_append, List.mem_map]
    by_cases hm : m = n
    · rw [hm, update_self] at hq
      rw [hm]
      exact (hlead hq hs).imp_right fun hT => ⟨_, hT, rfl⟩
    · rw [update_of_ne hm] at hq
      exact Or.inl (h.leaders hq hs)
  · intro call hc args hreq
    rcases List.mem_append.mp hc with hc | hc
    · have hold := h.requests call hc args hreq
      by_cases hm : call.caller = n
      · rw [hm] at hold
        rw [hm, update_self]
        exact { hold with term := hold.term.trans hprec.term_le }
      · rw [update_of_ne hm]
        exact hold
    · rw [hcaller call hc, update_self]
      exact hasks call hc args hreq
  · intro k reply hr hg
    obtain ⟨call, args, hk, hreq, hv⟩ := h.granted hr hg
    refine ⟨call, args, ?_, hreq, hkeeps _ _ _ hv⟩
    rw [List.getElem?_append_left (lt_of_getElem? hk)]
    exact hk

theorem Balloted.rests (h : Balloted c s won L) {host : Host σ D}
    (hprec : (s.hosts n).hardState.Precedes host.hardState)
    (hlive : ∀ {p}, host.proc = some p →
      Configured c n p.node ∧ p.node.hardState = host.hardState)
    (hidle : ∀ {p}, host.proc = some p → p.node.state = .follower) {tasks : List Task}
    {trace : List (Observation D)} {wins : List ℕ} (hsub : s.answered ⊆ answered)
    (hwins : ∀ T ∈ wins, (L.enter n host.hardState).Elects c n T) :
    Balloted c { s with
        hosts := update s.hosts n host
        answered := answered
        tasks := tasks
        trace := trace } (won ++ wins.map fun T => (n, T)) (L.enter n host.hardState) := by
  have hone : (s.calls ++ []).Pairwise fun x y => ¬SameVote x y := by
    rw [List.append_nil]
    exact h.one_vote
  have hnone : ∀ {p}, host.proc = some p → p.node.state ≠ .candidate ∧ p.node.state ≠ .leader := by
    intro p hp
    rw [hidle hp]
    exact ⟨by rintro ⟨⟩, by rintro ⟨⟩⟩
  have habs : Balloted c ⟨update s.hosts n host, s.calls ++ [], s.replies, answered, tasks, trace⟩
      _ _ := h.absorb hprec hlive hsub (by rintro _ ⟨⟩) (by rintro _ ⟨⟩) hone
    (fun hp hs => absurd hs (hnone hp).1) (fun hp hs => absurd hs (hnone hp).2) hwins
  rwa [List.append_nil] at habs

theorem Output.calls_vote {incarnation : ℕ} {peers : List NodeId} {call : Call D}
    (hc : call ∈ out.calls n incarnation peers) {args : RequestVoteArgs}
    (hreq : call.request = .vote args) :
    out = .requestVotes args ∧ call.caller = n ∧ call.callee ∈ peers := by
  cases out with
  | requestVotes args' =>
    obtain ⟨peer, hpeer, rfl⟩ := List.mem_map.mp hc
    cases hreq
    exact ⟨rfl, rfl, hpeer⟩
  | round term msgs =>
    obtain ⟨msg, _, hmsg⟩ := List.mem_filterMap.mp hc
    cases msg <;> cases hmsg
    cases hreq
  | _ => cases hc

section Steps

variable (h : Balloted c s won L) (hp : (s.hosts n).proc = some p) (ho : p.handle M i = some o)

include h hp ho

theorem Balloted.precedes {ws : List (StoreWrite D)} (hpre : ws <+: o.writes) (incarnation : ℕ)
    (proc : Option (Proc σ D)) : (s.hosts n).hardState.Precedes
      (Host.hardState ⟨(s.hosts n).disk.writeAll ws, incarnation, proc⟩) := by
  obtain ⟨B, hrec⟩ := Proc.handle_recorded ho
  rw [Host.hardState_writeAll, ← (h.live hp).2]
  cases hl : (hardStates ws).getLast? with
  | none => exact .refl _
  | some hs =>
    exact (List.pairwise_cons.mp hrec.order).1 hs
      ((hpre.filterMap _).subset (List.mem_of_getLast? hl))

theorem Balloted.outcome (hres : o.result = .ok (p', out)) (incarnation : ℕ)
    (proc : Option (Proc σ D)) : Configured c n p'.node ∧ p'.node.hardState =
      Host.hardState ⟨(s.hosts n).disk.writeAll o.writes, incarnation, proc⟩ := by
  obtain ⟨hconf, hhs⟩ := h.live hp
  obtain ⟨B, hrec⟩ := Proc.handle_recorded ho
  have hcfg := (Proc.handled ho hres).cursors.1
  refine ⟨⟨hconf.member, ?_, ?_⟩, ?_⟩
  · rw [RaftNode.id, hcfg]
    exact hconf.named
  · rw [RaftNode.peers, hcfg]
    exact hconf.peers
  · rw [Host.hardState_writeAll, ← hhs]
    exact hrec.last _ hres

theorem Balloted.asks (hres : o.result = .ok (p', out)) {incarnation : ℕ} {call : Call D}
    (hc : call ∈ out.calls n incarnation p.node.peers) {args : RequestVoteArgs}
    (hreq : call.request = .vote args) :
    Asks c p'.node.hardState call args ∧ p.node.currentTerm < args.term := by
  obtain ⟨hconf, _⟩ := h.live hp
  obtain ⟨rfl, hcaller, hpeer⟩ := Output.calls_vote hc hreq
  rw [hconf.peers, ValidCluster.mem_peerIDs] at hpeer
  cases (Proc.handled ho hres).campaign with
  | steady _ hno => exact absurd rfl (hno args)
  | stands _ hterm _ _ hargs hid =>
    rw [hconf.named] at hid
    refine ⟨⟨hcaller ▸ hconf.member, hpeer.1, hcaller ▸ hpeer.2, hid.trans hcaller.symm,
      hargs.le⟩, ?_⟩
    omega

theorem Balloted.asks_once (hres : o.result = .ok (p', out)) (incarnation : ℕ) :
    (s.calls ++ out.calls n incarnation p.node.peers).Pairwise fun x y => ¬SameVote x y := by
  obtain ⟨hconf, hhs⟩ := h.live hp
  refine List.pairwise_append.mpr ⟨h.one_vote, ?_, ?_⟩
  · cases out with
    | requestVotes args =>
      refine requestVotes_once ?_ args n incarnation
      rw [hconf.peers]
      exact ValidCluster.peerIDs_nodup
    | _ =>
      refine List.pairwise_of_forall_mem_list ?_
      rintro x hx y _ ⟨_, _, args, _, hreq, _⟩
      cases (Output.calls_vote hx hreq).1
  · rintro x hx y hy ⟨hcaller, _, args, args', hreq, hreq', hterm⟩
    have hold := (h.requests x hx args hreq).term
    have hnew := (h.asks hp ho hres hy hreq').2
    rw [hcaller, (Output.calls_vote hy hreq').2.1, ← hhs] at hold
    exact absurd (hterm ▸ hnew) (not_lt.mpr hold)

theorem Balloted.leads (hres : o.result = .ok (p', out)) (hs' : p'.node.state = .leader) :
    (n, p'.node.currentTerm) ∈ won ∨ p'.node.currentTerm ∈ o.wins p := by
  by_cases hs : p.node.state = .leader
  · left
    have hterm : p'.node.currentTerm = p.node.currentTerm := by
      cases (Proc.handled ho hres).campaign with
      | steady hab _ => exact (hab.leader hs').2
      | stands hcand =>
        rw [hs'] at hcand
        cases hcand
      | standsAlone hno => exact absurd hs hno
      | counts _ _ _ hterm => exact hterm
    rw [hterm]
    exact h.leaders hp hs
  · right
    rw [StepOutcome.wins, StepOutcome.process, hres]
    dsimp only
    rw [if_pos ⟨hs, hs'⟩]
    exact List.mem_singleton_self _

end Steps

/-- The input, if it is a granted vote, is the first answer to a request of the node. -/
def Counts (s : System σ D) (L : Ledger) (n : NodeId) (i : Input D) (answered : List ℕ) : Prop :=
  ∀ term reply, i = .voteReply term reply → reply.voteGranted = true →
    ∃ k call args, s.calls[k]? = some call ∧ call.caller = n ∧ call.request = .vote args ∧
      args.term = term ∧ k ∉ s.answered ∧ answered = k :: s.answered ∧
      L call.callee term = some n

theorem Balloted.counted (h : Balloted c s won L) (hp : (s.hosts n).proc = some p)
    {term : ℕ} {reply : RequestVoteReply} (hi : Counts s L n (.voteReply term reply) answered)
    (hs : p.node.state = .candidate) (hterm : p.node.currentTerm = term)
    (hg : reply.voteGranted = true) :
    ∃ Q, L.Tally c n { p.node with votes := p.node.votes + 1 } Q ∧
      Answered s.calls answered n p.node.currentTerm Q := by
  obtain ⟨Q, hQ, hans⟩ := h.candidates hp hs
  obtain ⟨k, call, args, hk, hcaller, hreq, hargs, hnew, rfl, hvote⟩ := hi term reply rfl hg
  have hout : call.callee ∉ Q := fun hmem =>
    hnew (hans k call args hk hcaller hreq (hargs.trans hterm.symm) hmem)
  refine ⟨insert call.callee Q, ⟨?_, ?_, ?_⟩, ?_⟩
  · exact Finset.insert_subset (h.requests call (List.mem_of_getElem? hk) args hreq).callee
      hQ.members
  · rw [Finset.card_insert_of_notMem hout, hQ.counted]
  · intro w hw
    rcases Finset.mem_insert.mp hw with rfl | hw
    · exact hterm ▸ hvote
    · exact hQ.votes w hw
  · exact hans.insert h.one_vote hk hcaller hreq (hargs.trans hterm.symm)

section Steps

variable (h : Balloted c s won L) (hp : (s.hosts n).proc = some p) (ho : p.handle M i = some o)
  (hres : o.result = .ok (p', out)) (hi : Counts s L n i answered)

include h hp ho hres hi

/-- Whoever becomes leader has the votes of a majority. -/
theorem Balloted.elects (hs : p.node.state ≠ .leader) (hs' : p'.node.state = .leader) :
    (L.enter n p'.node.hardState).Elects c n p'.node.currentTerm := by
  obtain ⟨hconf, hhs⟩ := h.live hp
  have hcamp := (Proc.handled ho hres).campaign
  have hkeeps : L.Keeps (L.enter n p'.node.hardState) := by
    rw [(h.outcome hp ho hres 0 none).2]
    exact (h.recorded n).keeps (h.precedes hp ho (List.prefix_refl _) 0 none)
  cases hcamp with
  | steady hab _ => exact absurd (hab.leader hs').1 hs
  | stands hcand =>
    rw [hs'] at hcand
    cases hcand
  | standsAlone _ _ _ hvote hq =>
    refine ⟨{n}, hconf.isQuorum (Finset.singleton_subset_iff.mpr hconf.member) hq, ?_⟩
    intro w hw
    rw [Finset.mem_singleton.mp hw]
    exact Ledger.enter_own (hvote.trans hconf.named) hconf.ne_none
  | counts hcand hterm hg hterm' _ hq =>
    obtain ⟨Q, hQ, _⟩ := h.counted hp hi hcand hterm hg
    rw [hterm']
    exact ⟨Q, hconf.isQuorum hQ.members ((hq hs').trans hQ.counted.ge),
      fun w hw => hkeeps _ _ _ (hQ.votes w hw)⟩

theorem Balloted.tally (hsub : s.answered ⊆ answered) (hs' : p'.node.state = .candidate)
    (incarnation : ℕ) : ∃ Q, (L.enter n p'.node.hardState).Tally c n p'.node Q ∧
      Answered (s.calls ++ out.calls n incarnation p.node.peers) answered n
        p'.node.currentTerm Q := by
  obtain ⟨hconf, hhs⟩ := h.live hp
  have hcamp := (Proc.handled ho hres).campaign
  have hkeeps : L.Keeps (L.enter n p'.node.hardState) := by
    rw [(h.outcome hp ho hres 0 none).2]
    exact (h.recorded n).keeps (h.precedes hp ho (List.prefix_refl _) 0 none)
  have hasks : ∀ call ∈ s.calls ++ out.calls n incarnation p.node.peers, ∀ args,
      call.request = .vote args → call.callee ≠ call.caller := by
    intro call hc args hreq
    rcases List.mem_append.mp hc with hc | hc
    · exact (h.requests call hc args hreq).distinct
    · exact (h.asks hp ho hres hc hreq).1.distinct
  cases hcamp with
  | steady hab hno =>
    obtain ⟨hcand, hterm, hvotes⟩ := hab.candidate hs'
    obtain ⟨Q, hQ, hans⟩ := h.candidates hp hcand
    refine ⟨Q, ⟨hQ.members, hQ.counted.trans hvotes.symm, ?_⟩, ?_⟩
    · rw [hterm]
      exact (hQ.mono hkeeps).votes
    · rw [hterm]
      exact hans.append hsub fun call hc _ args hreq =>
        hno args (Output.calls_vote hc hreq).1
  | stands _ _ hvote hone _ _ =>
    refine ⟨{n}, ⟨Finset.singleton_subset_iff.mpr hconf.member, ?_, ?_⟩, ?_⟩
    · rw [Finset.card_singleton, hone]
    · intro w hw
      rw [Finset.mem_singleton.mp hw]
      exact Ledger.enter_own (hvote.trans hconf.named) hconf.ne_none
    · intro k call args hk hcaller hreq _ hmem
      exact absurd ((Finset.mem_singleton.mp hmem).trans hcaller.symm)
        (hasks call (List.mem_of_getElem? hk) args hreq)
  | standsAlone _ hlead =>
    rw [hs'] at hlead
    cases hlead
  | counts hcand hterm hg hterm' hvotes _ =>
    obtain ⟨Q, hQ, hans⟩ := h.counted hp hi hcand hterm hg
    refine ⟨Q, ⟨hQ.members, hQ.counted.trans hvotes.symm, ?_⟩, ?_⟩
    · rw [hterm']
      exact (hQ.mono hkeeps).votes
    · rw [hterm']
      exact hans.append (List.Subset.refl _) (by rintro _ ⟨⟩)

end Steps

theorem StepOutcome.wins_spec {T : ℕ} (hT : T ∈ o.wins p) :
    ∃ p' out, o.result = .ok (p', out) ∧ p.node.state ≠ .leader ∧ p'.node.state = .leader ∧
      p'.node.currentTerm = T := by
  rw [wins] at hT
  split at hT
  · cases hT
  rename_i p' hp'
  obtain ⟨out, hres⟩ := StepOutcome.process_eq hp'
  split at hT
  · rename_i hs
    exact ⟨p', out, hres, hs.1, hs.2, (List.mem_singleton.mp hT).symm⟩
  · cases hT

section Steps

variable (h : Balloted c s won L) (hp : (s.hosts n).proc = some p) (ho : p.handle M i = some o)
  (hi : Counts s L n i answered)

include h hp ho hi

theorem Balloted.wins (incarnation : ℕ) (proc : Option (Proc σ D)) {T : ℕ} (hT : T ∈ o.wins p) :
    (L.enter n (Host.hardState
      ⟨(s.hosts n).disk.writeAll o.writes, incarnation, proc⟩)).Elects c n T := by
  obtain ⟨p', out, hres, hs, hs', rfl⟩ := StepOutcome.wins_spec hT
  rw [← (h.outcome hp ho hres incarnation proc).2]
  exact h.elects hp ho hres hi hs hs'

theorem Balloted.settle (hsub : s.answered ⊆ answered) :
    Balloted c { s.settle n p o with answered := answered }
      (won ++ (o.wins p).map fun T => (n, T))
      (L.enter n ((s.settle n p o).hosts n).hardState) := by
  rw [System.settle]
  cases hres : o.result with
  | error e =>
    dsimp only
    rw [update_self]
    exact h.rests (h.precedes hp ho (List.prefix_refl _) _ _) (by rintro _ ⟨⟩) (by rintro _ ⟨⟩)
      hsub fun T hT => h.wins hp ho hi _ _ hT
  | ok x =>
    obtain ⟨p', out⟩ := x
    dsimp only
    rw [update_self]
    have hlast := h.outcome hp ho hres (s.hosts n).incarnation (some p')
    refine h.absorb (h.precedes hp ho (List.prefix_refl _) _ _) ?_ hsub
      (fun _ hc => (Output.calls_spec hc).1) ?_ (h.asks_once hp ho hres _) ?_ ?_
      fun T hT => h.wins hp ho hi _ _ hT
    · rintro _ ⟨⟩
      exact hlast
    · intro call hc args hreq
      rw [← hlast.2]
      exact (h.asks hp ho hres hc hreq).1
    · rintro _ ⟨⟩ hs'
      rw [← hlast.2]
      exact h.tally hp ho hres hi hsub hs' _
    · rintro _ ⟨⟩ hs'
      exact h.leads hp ho hres hs'

theorem Balloted.cut (written : ℕ) :
    ∃ L', Balloted c { s with
        hosts := update s.hosts n
          ⟨(s.hosts n).disk.writeAll (o.writes.take written), (s.hosts n).incarnation, none⟩ }
      (won ++ (if o.writes.length ≤ written then o.wins p else []).map fun T => (n, T)) L' := by
  refine ⟨_, h.rests (h.precedes hp ho (List.take_prefix _ _) _ _) (by rintro _ ⟨⟩)
    (by rintro _ ⟨⟩) (List.Subset.refl _) fun T hT => ?_⟩
  split at hT
  · rename_i hall
    rw [List.take_of_length_le hall]
    exact h.wins hp ho hi _ _ hT
  · cases hT

end Steps

theorem Balloted.reply (h : Balloted c s won L) {k : ℕ} {reply : Reply}
    (hg : ∀ r, reply = .vote r → r.voteGranted = true →
      ∃ call args, s.calls[k]? = some call ∧ call.request = .vote args ∧
        L call.callee args.term = some args.candidateID) :
    Balloted c { s with replies := s.replies ++ [(k, reply)] } won L := by
  refine { h with granted := fun {k' r} hr hgr => ?_ }
  rcases List.mem_append.mp hr with hr | hr
  · exact h.granted hr hgr
  · cases List.mem_singleton.mp hr
    exact hg r rfl hgr

theorem settle_hardState (s : System σ D) (n : NodeId) (p : Proc σ D) (o : StepOutcome σ D) :
    ((s.settle n p o).hosts n).hardState =
      (hardStates o.writes).getLast?.getD (s.hosts n).hardState := by
  rw [System.settle]
  split <;>
  · dsimp only
    rw [update_self]
    exact Host.hardState_writeAll _ _ _ _

theorem Balloted.grants (h : Balloted c s won L) {k : ℕ} {call : Call D}
    (hk : s.calls[k]? = some call)
    (hx : s.run M call.callee call.request.input = some (t, some out))
    {r : RequestVoteReply} (hr : out.reply = some (.vote r)) (hg : r.voteGranted = true) :
    ∃ args, call.request = .vote args ∧
      L.enter call.callee (t.hosts call.callee).hardState call.callee args.term =
        some args.candidateID := by
  obtain ⟨p, o, _, ho, rfl, hout⟩ := run_cases hx
  rw [StepOutcome.output] at hout
  split at hout
  · cases hout
  rename_i p' out' hres
  cases hout
  cases hreq : call.request with
  | append args | snapshot args =>
    rw [hreq] at ho
    cases ho
    obtain ⟨rn', x, _, _, rfl⟩ := Proc.locked_ok hres
    cases hr
  | vote args =>
    rw [hreq] at ho
    cases ho
    obtain ⟨rn', x, hvote, _, rfl⟩ := Proc.locked_ok hres
    cases hr
    have hasks := h.requests call (List.mem_of_getElem? hk) args hreq
    have hne : args.candidateID ≠ "" := by
      rw [hasks.candidate]
      exact ValidCluster.ne_empty hasks.caller
    refine ⟨args, rfl, ?_⟩
    rw [settle_hardState, Proc.locked_writes, (handleRequestVote_granted hvote hg).2,
      Option.getD_some, Ledger.enter, update_self, update_self, voteOf_eq hne]

theorem counts_internal (hi : i.internal = true) : Counts s L n i s.answered := by
  rintro term reply rfl
  cases hi

theorem counts_request (request : Request D) : Counts s L n request.input s.answered := by
  cases request <;> rintro term reply ⟨⟩

theorem Balloted.counts_reply (h : Balloted c s won L) {k : ℕ} {reply : Reply} {call : Call D}
    (hr : (k, reply) ∈ s.replies) (hk : s.calls[k]? = some call) (hnew : k ∉ s.answered)
    (hi : call.input reply = some i) : Counts s L call.caller i (k :: s.answered) := by
  rintro term r rfl hg
  cases reply with
  | vote r' =>
    cases hreq : call.request with
    | vote args =>
      simp only [Call.input, hreq, Option.some.injEq, Input.voteReply.injEq] at hi
      obtain ⟨rfl, rfl⟩ := hi
      obtain ⟨call', args', hk', hreq', hv⟩ := h.granted hr hg
      rw [hk] at hk'
      cases hk'
      rw [hreq] at hreq'
      cases hreq'
      refine ⟨k, call, args, hk, rfl, hreq, rfl, hnew, rfl, ?_⟩
      rw [hv, (h.requests call (List.mem_of_getElem? hk) args hreq).candidate]
    | append args => simp [Call.input, hreq] at hi
    | snapshot args => simp [Call.input, hreq] at hi
  | append r' => cases hreq : call.request <;> simp [Call.input, hreq] at hi
  | snapshot r' => cases hreq : call.request <;> simp [Call.input, hreq] at hi

theorem sectionOf_eq {e : Event D} (hin : s.inputOf e = some (n, i))
    (hp : (s.hosts n).proc = some p) (ho : p.handle M i = some o) :
    s.sectionOf M e = some (n, p, o) := by
  rw [System.sectionOf, hin, Option.bind_some, hp, Option.bind_some, ho]
  rfl

theorem sectionOf_cases {e : Event D} (h : s.sectionOf M e = some (n, p, o)) :
    ∃ i, s.inputOf e = some (n, i) ∧ (s.hosts n).proc = some p ∧ p.handle M i = some o := by
  obtain ⟨⟨m, i⟩, hin, h⟩ := Option.bind_eq_some_iff.mp h
  obtain ⟨q, hq, h⟩ := Option.bind_eq_some_iff.mp h
  obtain ⟨o', ho, heq⟩ := Option.map_eq_some_iff.mp h
  cases heq
  exact ⟨i, hin, hq, ho⟩

/-- An event that goes through hands its process no vote that was counted before. -/
theorem Balloted.counts (h : Balloted c s won L) {e : Event D} (hst : s.step M c settings e = some t)
    (hin : s.inputOf e = some (n, i)) :
    ∃ answered, s.answered ⊆ answered ∧ Counts s L n i answered := by
  cases stepped_of_step hst with
  | boot | crash | unsaved | loaded => cases hin
  | act n i u out hint hx =>
    cases hin
    exact ⟨_, List.Subset.refl _, counts_internal hint⟩
  | ignored k call u out hk _ _ | answered k call u out reply hk _ _ =>
    rw [inputOf_deliver hk] at hin
    cases hin
    exact ⟨_, List.Subset.refl _, counts_request call.request⟩
  | received j k reply call i u out hj hk hnew _ hi _ =>
    rw [inputOf_receive hj hk hi] at hin
    cases hin
    exact ⟨_, List.subset_cons_self _ _,
      h.counts_reply (List.mem_of_getElem? hj) hk hnew hi⟩

theorem Balloted.hosts_only (h : Balloted c s won L) {host : Host σ D}
    (hdisk : host.disk = (s.hosts n).disk)
    (hlive : ∀ {p}, host.proc = some p →
      Configured c n p.node ∧ p.node.hardState = host.hardState)
    (hidle : ∀ {p}, host.proc = some p → p.node.state = .follower) :
    ∃ L', Balloted c { s with hosts := update s.hosts n host } won L' := by
  have hprec : (s.hosts n).hardState.Precedes host.hardState := by
    rw [Host.hardState, Host.hardState, hdisk]
    exact .refl _
  have hrests : Balloted c { s with hosts := update s.hosts n host }
      (won ++ ([] : List ℕ).map fun T => (n, T)) _ :=
    h.rests hprec hlive hidle (List.Subset.refl _) (by rintro _ ⟨⟩)
  rw [List.map_nil, List.append_nil] at hrests
  exact ⟨_, hrests⟩

theorem booted_configured (hn : n ∈ c.ids) {disk : Disk D} {rn : RaftNode D}
    (hrn : newNode (nodeConfig c settings n) disk = .ok rn) :
    Configured c n rn ∧ rn.state = .follower := by
  obtain ⟨_, _, _, _, _, rfl⟩ := newNodeFrom_ok.mp hrn
  exact ⟨⟨ValidCluster.mem_members.mpr hn, rfl, rfl⟩, rfl⟩

theorem Balloted.sends (h : Balloted c s won L) {call : Call D} {tasks : List Task}
    (hno : ∀ args, call.request ≠ .vote args) :
    Balloted c { s with calls := s.calls ++ [call], tasks := tasks } won L := by
  refine { h with
    candidates := fun hp hs => ?_
    requests := fun call' hc args hreq => ?_
    one_vote := ?_
    granted := fun hr hg => ?_ }
  · obtain ⟨Q, hQ, hans⟩ := h.candidates hp hs
    refine ⟨Q, hQ, hans.append (List.Subset.refl _) fun call' hc _ => ?_⟩
    rw [List.mem_singleton.mp hc]
    exact hno
  · rcases List.mem_append.mp hc with hc | hc
    · exact h.requests call' hc args hreq
    · rw [List.mem_singleton.mp hc] at hreq
      exact absurd hreq (hno args)
  · refine List.pairwise_append.mpr ⟨h.one_vote, List.pairwise_singleton _ _, ?_⟩
    rintro x _ y hy ⟨_, _, _, args, _, hreq, _⟩
    rw [List.mem_singleton.mp hy] at hreq
    exact hno args hreq
  · obtain ⟨call', args, hk, hreq, hv⟩ := h.granted hr hg
    refine ⟨call', args, ?_, hreq, hv⟩
    dsimp only
    rw [List.getElem?_append_left (lt_of_getElem? hk)]
    exact hk

theorem run_answered {out : Option (Output D)} (hx : s.run M n i = some (t, out)) :
    t.answered = s.answered := by
  obtain ⟨p, o, _, _, rfl, _⟩ := run_cases hx
  exact (congrArg System.answered (settle_answered s n p o)).symm

theorem Balloted.ran (h : Balloted c s won L) {e : Event D} {out : Option (Output D)}
    (hin : s.inputOf e = some (n, i)) (hx : s.run M n i = some (t, out))
    (hi : Counts s L n i answered) (hsub : s.answered ⊆ answered) :
    Balloted c { t with answered := answered } (won ++ s.winners M e)
      (L.enter n (t.hosts n).hardState) := by
  obtain ⟨p, o, hp, ho, rfl, _⟩ := run_cases hx
  rw [System.winners, sectionOf_eq hin hp ho]
  exact h.settle hp ho hi hsub

theorem Balloted.step (h : Balloted c s won L) {e : Event D}
    (hst : s.step M c settings e = some t) : ∃ L', Balloted c t (won ++ s.winners M e) L' := by
  have hidle : s.inputOf e = none → s.winners M e = [] := by
    intro hin
    rw [System.winners, System.sectionOf, hin]
    rfl
  cases stepped_of_step hst with
  | boot n rn hn _ hrn =>
    rw [hidle rfl, List.append_nil]
    obtain ⟨hconf, hs⟩ := booted_configured hn hrn
    refine h.hosts_only rfl ?_ ?_
    · rintro _ ⟨⟩
      exact ⟨hconf, (newNodeFrom_recalls hrn).1⟩
    · rintro _ ⟨⟩
      exact hs
  | crash n p _ =>
    rw [hidle rfl, List.append_nil]
    exact h.hosts_only rfl (by rintro _ ⟨⟩) (by rintro _ ⟨⟩)
  | unsaved =>
    rw [hidle rfl, List.append_nil]
    exact ⟨L, { h with }⟩
  | loaded j task p snap =>
    rw [hidle rfl, List.append_nil]
    exact ⟨L, h.sends (by rintro _ ⟨⟩)⟩
  | act n i u out hint hx =>
    have hin : s.inputOf (.act n i) = some (n, i) := rfl
    have hu := h.ran hin hx (counts_internal hint) (List.Subset.refl _)
    rw [← run_answered hx] at hu
    exact ⟨_, hu⟩
  | ignored k call u out hk hx _ =>
    have hu := h.ran (inputOf_deliver hk) hx (counts_request call.request) (List.Subset.refl _)
    rw [← run_answered hx] at hu
    exact ⟨_, hu⟩
  | answered k call u out reply hk hx hrep =>
    have hu := h.ran (inputOf_deliver hk) hx (counts_request call.request) (List.Subset.refl _)
    rw [← run_answered hx] at hu
    refine ⟨_, hu.reply fun r hr hg => ?_⟩
    rw [hr] at hrep
    obtain ⟨args, hreq, hv⟩ := h.grants hk hx hrep hg
    refine ⟨call, args, ?_, hreq, hv⟩
    obtain ⟨p, o, _, _, rfl, _⟩ := run_cases hx
    exact getElem?_of_isPrefix (settle_calls s call.callee p o) hk
  | received j k reply call i u out hj hk hnew _ hi hx =>
    have hu := h.ran (inputOf_receive hj hk hi) hx
      (h.counts_reply (List.mem_of_getElem? hj) hk hnew hi) (List.subset_cons_self _ _)
    rw [← run_answered hx] at hu
    exact ⟨_, hu⟩

end Invariant

section Theorem

variable {M : StateMachine σ D} {c : ValidCluster} {settings : NodeId → Config}
  {v w : Elections σ D}

theorem Elections.balloted_step {e : CutEvent D}
    (h : ∃ L, Balloted c v.system v.entered L) (hst : v.step M c settings e = some w) :
    ∃ L, Balloted c w.system w.entered L := by
  obtain ⟨L, h⟩ := h
  cases e with
  | whole e =>
    rw [Elections.step] at hst
    split at hst
    · cases hst
    rename_i t ht
    cases hst
    exact h.step ht
  | cut e written =>
    rw [Elections.step] at hst
    split at hst
    · rename_i t n p o ht hsec
      cases hst
      obtain ⟨i, hin, hp, ho⟩ := sectionOf_cases hsec
      obtain ⟨answered, _, hi⟩ := h.counts ht hin
      exact h.cut hp ho hi written
    · cases hst

/-- Election Safety: whoever leads has entered the leader state in that term, and at most one node
ever enters it in a term. -/
theorem election_safety (M : StateMachine σ D) (c : ValidCluster) (settings : NodeId → Config)
    {v : Elections σ D} (hrun : Runs (Elections.step M c settings) Always Elections.init v) :
    (∀ n p, (v.system.hosts n).proc = some p → p.node.state = .leader →
      (n, p.node.currentTerm) ∈ v.entered) ∧
    ∀ T n m, (n, T) ∈ v.entered → (m, T) ∈ v.entered → n = m := by
  obtain ⟨L, h⟩ := hrun.invariant (P := fun v => ∃ L, Balloted c v.system v.entered L)
    ⟨_, .init⟩ fun _ _ _ hv _ hst => Elections.balloted_step hv hst
  exact ⟨fun n p => h.leaders, fun T n m hn hm => (h.elected hn).unique (h.elected hm)⟩

/-- The second member crashes between the two writes of its vote for the first, which wins with
the third; once restarted, it wins the next term. -/
def trioVotes : List (CutEvent (List LogEntry)) :=
  [.boot "n1", .boot "n2", .boot "n3", .act "n1" .start, .act "n2" .start, .act "n3" .start,
    .act "n1" .electionTimeout].map .whole ++ .cut (.deliver 0) 1 ::
  [.boot "n2", .act "n2" .start, .deliver 1, .receive 0, .act "n2" .electionTimeout, .deliver 3,
    .receive 1].map .whole

theorem election_safety_trio :
    ∃ v, exec (Elections.step recorder trio noSettings) (fun _ _ => true) Elections.init
        trioVotes = some v ∧ v.entered = [("n1", 1), ("n2", 2)] ∧
      (∀ n p, (v.system.hosts n).proc = some p → p.node.state = .leader →
        (n, p.node.currentTerm) ∈ v.entered) ∧
      ∀ T n m, (n, T) ∈ v.entered → (m, T) ∈ v.entered → n = m := by
  have hrun : ((exec (Elections.step recorder trio noSettings) (fun _ _ => true) Elections.init
      trioVotes).any fun v => decide (v.entered = [("n1", 1), ("n2", 2)])) = true := by
    decide +kernel
  obtain ⟨v, hv, hentered⟩ := (Option.any_eq_true _ _).mp hrun
  exact ⟨v, hv, of_decide_eq_true hentered,
    election_safety recorder trio noSettings (runs_of_exec (fun _ _ _ => trivial) _ hv)⟩

end Theorem

end Raft
