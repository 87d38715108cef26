import RaftDB.RaftClusterRelation

/-!
# Every event of the cluster keeps the refinement

One lemma absorbs what a step changes on the host where it happens and what it adds to the
network and the trace. Boots, crashes and handler steps are instances of it. Under `fresh`
a snapshot is loaded only while the node still leads the term it will be sent in.
-/
namespace Raft

open Storage ClusterConfig ReplicatedLog LogPrefix TransitionSystem Function
open RaftNode hiding id

variable {σ D : Type} {M : StateMachine σ D} {R : Represents M} {c : ValidCluster}
  {settings : NodeId → Config} {fresh : Prop} {n : NodeId} {a a' : Abstract}
  {s t : System σ D} {p p' : Proc σ D}

section Absorb

/-- What the host of `n` may become in a step of its abstract node. -/
structure Progress (R : Represents M) (c : ValidCluster) (settings : NodeId → Config)
    (n : NodeId) (a : Abstract) (old new : Host σ D) : Prop where
  host : HostRel R c settings n a new
  incarnation : old.incarnation ≤ new.incarnation
  commit : ∀ {p'}, new.proc = some p' → new.incarnation = old.incarnation →
    ∃ p, old.proc = some p ∧ p.node.commitIndex ≤ p'.node.commitIndex

structure Sends (R : Represents M) (c : ValidCluster) (fresh : Prop) (n : NodeId)
    (incarnation : ℕ) (a : Abstract) (old new : List (Call D)) : Prop where
  rel : ∀ call ∈ new, CallRel R c fresh a call
  caller : ∀ call ∈ new, call.caller = n
  incarnation : ∀ call ∈ new, call.incarnation = incarnation
  request : ∀ call ∈ new, ∀ args, call.request ≠ .snapshot args
  one_vote : (old ++ new).Pairwise fun x y => ¬SameVote x y

theorem Sends.nothing (h : Sim R c settings fresh s a) {incarnation : ℕ} :
    Sends R c fresh n incarnation a' s.calls [] := by
  refine ⟨?_, ?_, ?_, ?_, by rw [List.append_nil]; exact h.one_vote⟩ <;> simp

theorem Sim.absorb (h : Sim R c settings fresh s a) (hn : n ∈ c.members)
    (hacts : ActsAs c n a a') (hx : Indexed a') (hf : fresh → ¬a'.stale) {host : Host σ D}
    (hhost : Progress R c settings n a' (s.hosts n) host) {answered : List ℕ}
    (hsub : s.answered ⊆ answered) {calls : List (Call D)}
    (hcalls : Sends R c fresh n host.incarnation a' s.calls calls)
    (hballot : ∀ {p}, host.proc = some p → p.node.state = .candidate → ∃ Q,
      Ballot c a' n p.node Q ∧ Answered (s.calls ++ calls) answered n p.node.currentTerm Q)
    {tasks : List Task} (htasks : ∀ t ∈ tasks, TaskRel c t) {trace : List (Observation D)}
    (htrace : ∀ o ∈ trace, ObservationRel R fresh a' o) :
    Sim R c settings fresh
      { hosts := update s.hosts n host, calls := s.calls ++ calls, replies := s.replies,
        answered := answered, tasks := s.tasks ++ tasks, trace := s.trace ++ trace } a' := by
  have hg := hacts.grows h.valid
  refine ⟨hacts.invariant h.valid, hx, hf, ?_, ?_, ?_, ?_, ?_, hcalls.one_vote, ?_, ?_, ?_, ?_⟩ <;>
    dsimp only
  · intro m hm
    by_cases hmn : m = n
    · rw [hmn, update_self]
      exact hhost.host
    · rw [update_of_ne hmn]
      exact (h.hosts m hm).other h.valid hg (hacts.untouched hmn)
  · intro m hm
    have hmn : m ≠ n := fun heq => hm (heq ▸ hn)
    rw [update_of_ne hmn]
    exact h.strangers hm
  · intro call hc
    rcases List.mem_append.mp hc with hc | hc
    · exact (h.calls call hc).mono hg
    · exact hcalls.rel call hc
  · intro call hc
    rcases List.mem_append.mp hc with hc | hc
    · have hle := h.incarnations call hc
      by_cases hcn : call.caller = n
      · rw [hcn, update_self]
        rw [hcn] at hle
        exact hle.trans hhost.incarnation
      · rw [update_of_ne hcn]
        exact hle
    · rw [hcalls.caller call hc, update_self, hcalls.incarnation call hc]
  · intro call hc args p hreq hinc hp
    rcases List.mem_append.mp hc with hc | hc
    · by_cases hcn : call.caller = n
      · have hle := h.incarnations call hc
        have hold := h.sent call hc args
        rw [hcn] at hle hold
        rw [hcn, update_self] at hinc hp
        have hsame : host.incarnation = (s.hosts n).incarnation := by
          have := hhost.incarnation
          omega
        obtain ⟨q, hq, hcommit⟩ := hhost.commit hp hsame
        exact (hold q hreq (hsame.symm.trans hinc) hq).trans hcommit
      · rw [update_of_ne hcn] at hinc hp
        exact h.sent call hc args p hreq hinc hp
    · exact absurd hreq (hcalls.request call hc args)
  · intro k reply hr
    obtain ⟨call, hk, hrel⟩ := h.replies k reply hr
    exact ⟨call, by rw [List.getElem?_append_left (lt_of_getElem? hk)]; exact hk, hrel.mono hg⟩
  · intro t ht
    exact (List.mem_append.mp ht).elim (h.tasks t) (htasks t)
  · intro m p hp hcand
    by_cases hmn : m = n
    · rw [hmn, update_self] at hp
      rw [hmn]
      exact hballot hp hcand
    · rw [update_of_ne hmn] at hp
      obtain ⟨Q, hQ, hans⟩ := h.ballots m p hp hcand
      refine ⟨Q, hQ.mono hg, hans.append hsub fun call hc hcm => ?_⟩
      exact absurd (hcm.symm.trans (hcalls.caller call hc)) hmn
  · intro o ho
    rcases List.mem_append.mp ho with ho | ho
    · exact (h.trace o ho).mono h.valid hg
    · exact htrace o ho

theorem Sim.absorb_host (h : Sim R c settings fresh s a) (hn : n ∈ c.members)
    (hacts : ActsAs c n a a') (hx : Indexed a') (hf : fresh → ¬a'.stale) {host : Host σ D}
    (hhost : Progress R c settings n a' (s.hosts n) host)
    (hidle : ∀ {p}, host.proc = some p → p.node.state ≠ .candidate) :
    Sim R c settings fresh { s with hosts := update s.hosts n host } a' := by
  have htasks : ∀ t ∈ ([] : List Task), TaskRel c t := by simp
  have htrace : ∀ o ∈ ([] : List (Observation D)), ObservationRel R fresh a' o := by simp
  have hsim := h.absorb hn hacts hx hf hhost (List.Subset.refl _) (.nothing h)
    (fun hp hcand => absurd hcand (hidle hp)) htasks htrace
  rwa [List.append_nil, List.append_nil, List.append_nil] at hsim

end Absorb

section Settle

theorem Output.calls_spec {out : Output D} {incarnation : ℕ} {peers : List NodeId}
    {call : Call D} (h : call ∈ out.calls n incarnation peers) :
    call.caller = n ∧ call.incarnation = incarnation ∧
      ∀ args, call.request ≠ .snapshot args := by
  cases out with
  | requestVotes args =>
    obtain ⟨peer, _, rfl⟩ := List.mem_map.mp h
    exact ⟨rfl, rfl, by rintro _ ⟨⟩⟩
  | round term msgs =>
    obtain ⟨msg, _, hmsg⟩ := List.mem_filterMap.mp h
    cases msg with
    | append peer args =>
      cases hmsg
      exact ⟨rfl, rfl, by rintro _ ⟨⟩⟩
    | snapshot peer => cases hmsg
  | _ => cases h

theorem requestVotes_once {peers : List NodeId} (hp : peers.Nodup) (args : RequestVoteArgs)
    (n : NodeId) (incarnation : ℕ) :
    ((Output.requestVotes args : Output D).calls n incarnation peers).Pairwise
      fun x y => ¬SameVote x y := by
  refine List.pairwise_map.mpr (hp.imp ?_)
  rintro x y hne ⟨_, hxy, _⟩
  exact hne hxy

structure Emits (R : Represents M) (c : ValidCluster) (fresh : Prop) (s : System σ D)
    (answered : List ℕ) (n : NodeId) (p : Proc σ D) (a : Abstract) (p' : Proc σ D)
    (out : Output D) : Prop where
  observed : Observed R a out
  effects : Effects fresh a n p.node p'.node
  calls : ∀ call ∈ out.calls n (s.hosts n).incarnation p.node.peers, CallRel R c fresh a call
  one_vote : (s.calls ++ out.calls n (s.hosts n).incarnation p.node.peers).Pairwise
    fun x y => ¬SameVote x y
  tasks : ∀ t ∈ out.tasks n (s.hosts n).incarnation, TaskRel c t
  ballot : p'.node.state = .candidate → ∃ Q, Ballot c a n p'.node Q ∧
    Answered (s.calls ++ out.calls n (s.hosts n).incarnation p.node.peers) answered n
      p'.node.currentTerm Q

theorem Sim.settle (h : Sim R c settings fresh s a) (hn : n ∈ c.members)
    (hp : (s.hosts n).proc = some p) {o : StepOutcome σ D}
    (hr : Reaction R c fresh (nodeConfig c settings n) n a (s.hosts n).disk p o a')
    {answered : List ℕ} (hsub : s.answered ⊆ answered)
    (he : ∀ {p' out}, o.result = .ok (p', out) → Emits R c fresh s answered n p a' p' out) :
    Sim R c settings fresh { s.settle n p o with answered := answered } a' := by
  rw [System.settle]
  cases hres : o.result with
  | error e =>
    obtain ⟨hdead, hreason⟩ := hr.dead hres
    have hhost : Progress R c settings n a' (s.hosts n)
        ⟨(s.hosts n).disk.writeAll o.writes, (s.hosts n).incarnation, none⟩ :=
      ⟨⟨by rintro _ ⟨⟩, fun _ => hdead⟩, le_rfl, by rintro _ ⟨⟩⟩
    have hnone : ∀ t ∈ ([] : List Task), TaskRel c t := by simp
    have htrace : ∀ ob ∈ [Observation.panicked n e], ObservationRel R fresh a' ob := by
      intro ob hob
      rw [List.mem_singleton.mp hob]
      exact hreason
    have hsim := h.absorb hn hr.acts hr.indexed hr.unstale hhost hsub (.nothing h)
      (by rintro _ ⟨⟩) hnone htrace
    rwa [List.append_nil, List.append_nil] at hsim
  | ok x =>
    obtain ⟨p', out⟩ := x
    obtain ⟨halive, hcommit⟩ := hr.alive hres
    have hem := he hres
    have hi := hr.acts.invariant h.valid
    have hhost : Progress R c settings n a' (s.hosts n)
        ⟨(s.hosts n).disk.writeAll o.writes, (s.hosts n).incarnation, some p'⟩ := by
      refine ⟨⟨?_, by rintro ⟨⟩⟩, le_rfl, ?_⟩
      · rintro _ ⟨⟩
        exact halive
      · rintro _ ⟨⟩ _
        exact ⟨p, hp, hcommit⟩
    refine h.absorb hn hr.acts hr.indexed hr.unstale hhost hsub
      ⟨hem.calls, fun _ hc => (Output.calls_spec hc).1, fun _ hc => (Output.calls_spec hc).2.1,
        fun _ hc => (Output.calls_spec hc).2.2, hem.one_vote⟩ ?_ hem.tasks ?_
    · rintro _ ⟨⟩
      exact hem.ballot
    · intro ob hob
      rcases List.mem_append.mp hob with hob | hob
      · have hobs := hem.observed
        cases out with
        | applied e | restored data =>
          rw [List.mem_singleton.mp hob]
          exact hobs
        | _ => cases hob
      · exact halive.observed_leader hi hem.effects ob hob

end Settle

section Inputs

variable {answered : List ℕ} {out : Output D} {o : StepOutcome σ D}

theorem Output.Silent.calls_eq (h : out.Silent) (incarnation : ℕ) (peers : List NodeId) :
    out.calls n incarnation peers = [] := by
  cases out <;> first | rfl | exact h.elim

theorem Output.Silent.tasks_eq (h : out.Silent) (incarnation : ℕ) :
    out.tasks n incarnation = [] := by
  cases out <;> first | rfl | exact h.elim

theorem Sim.emits_silent (h : Sim R c settings fresh s a) (hobs : Observed R a' out)
    (hsilent : out.Silent) (heff : Effects fresh a' n p.node p'.node)
    (hballot : p'.node.state = .candidate → ∃ Q, Ballot c a' n p'.node Q ∧
      Answered s.calls answered n p'.node.currentTerm Q) :
    Emits R c fresh s answered n p a' p' out := by
  refine ⟨hobs, heff, ?_, ?_, ?_, ?_⟩
  · simp [hsilent.calls_eq]
  · rw [hsilent.calls_eq, List.append_nil]
    exact h.one_vote
  · simp [hsilent.tasks_eq]
  · rw [hsilent.calls_eq, List.append_nil]
    exact hballot

theorem Sim.emits_steady (h : Sim R c settings fresh s a) (hp : (s.hosts n).proc = some p)
    (hg : Grows a a') (hobs : Observed R a' out) (hsilent : out.Silent)
    (hs : Steady fresh a' n p.node p'.node) (hsub : s.answered ⊆ answered) :
    Emits R c fresh s answered n p a' p' out := by
  refine h.emits_silent hobs hsilent hs.effects fun hcand => ?_
  obtain ⟨hold, hterm, hvotes⟩ := hs.candidate hcand
  obtain ⟨Q, hQ, hans⟩ := h.ballots n p hp hold
  have hQ' := hQ.mono hg
  refine ⟨Q, ⟨hQ.members, hvotes.symm ▸ hQ.counted, hterm.symm ▸ hQ'.votes⟩, ?_⟩
  rw [hterm]
  exact fun k call args hk hc hr ht hmem => hsub (hans k call args hk hc hr ht hmem)

theorem Sim.related (h : Sim R c settings fresh s a) (hn : n ∈ c.members)
    (hp : (s.hosts n).proc = some p) :
    Alive R (nodeConfig c settings n) n a (s.hosts n).disk p ∧ Related c fresh n a p.node ∧
      Configured c n p.node := by
  have halive := (h.hosts n hn).alive hp
  exact ⟨halive, halive.related h.valid h.indexed h.unstale, halive.configured hn⟩

theorem Sim.member (h : Sim R c settings fresh s a) (hp : (s.hosts n).proc = some p) :
    n ∈ c.members := by
  by_contra hn
  rw [h.strangers hn] at hp
  cases hp

theorem Sim.request (h : Sim R c settings fresh s a) {call : Call D} (hcall : call ∈ s.calls)
    (hp : (s.hosts call.callee).proc = some p) (ho : p.handle M call.request.input = some o) :
    ∃ a', Reaction R c fresh (nodeConfig c settings call.callee) call.callee a
        (s.hosts call.callee).disk p o a' ∧
      ∀ {p' out}, o.result = .ok (p', out) →
        Emits R c fresh s s.answered call.callee p a' p' out ∧
          ∀ reply, out.reply = some reply → ReplyRel a' call reply := by
  obtain ⟨_, hcallee, _, hreq⟩ := h.calls call hcall
  obtain ⟨halive, hrel, _⟩ := h.related hcallee hp
  cases hcr : call.request with
  | vote args =>
    rw [hcr] at hreq ho
    cases ho
    obtain ⟨a', hr, hpost⟩ := halive.locked hrel
      (hrel.handleRequestVote (I := fun _ => False) hreq.2) (by rintro _ ⟨⟩) Output.voteReply
    refine ⟨a', hr, fun hres => ?_⟩
    obtain ⟨rn', reply, rfl, rfl, hsub, hvote⟩ := hpost hres
    refine ⟨h.emits_steady hp (hr.acts.grows h.valid) trivial trivial hsub.steady
      (List.Subset.refl _), ?_⟩
    rintro _ ⟨⟩ args' hargs hgr
    cases hcr.symm.trans hargs
    exact hvote hgr
  | append args =>
    rw [hcr] at hreq ho
    cases ho
    obtain ⟨a', hr, hpost⟩ := halive.locked hrel
      (hrel.handleAppendEntries (I := fun _ => False) hreq) (by rintro _ ⟨⟩) Output.appendReply
    refine ⟨a', hr, fun hres => ?_⟩
    obtain ⟨rn', reply, rfl, rfl, hsub, hconf⟩ := hpost hres
    refine ⟨h.emits_steady hp (hr.acts.grows h.valid) trivial trivial hsub.steady
      (List.Subset.refl _), ?_⟩
    rintro _ ⟨⟩ args' hargs hs
    cases hcr.symm.trans hargs
    exact hconf hs
  | snapshot args =>
    rw [hcr] at hreq ho
    cases ho
    obtain ⟨a', hr, hpost⟩ := halive.locked hrel (hrel.handleInstallSnapshot hreq.1)
      (by rintro _ rfl; exact ⟨hreq.2, hreq.1.index_le⟩) Output.snapshotReply
    refine ⟨a', hr, fun hres => ?_⟩
    obtain ⟨rn', reply, rfl, rfl, hsub⟩ := hpost hres
    refine ⟨h.emits_steady hp (hr.acts.grows h.valid) trivial trivial hsub.steady
      (List.Subset.refl _), ?_⟩
    rintro _ ⟨⟩
    trivial

theorem Sim.reply (h : Sim R c settings fresh s a) {k : ℕ} {call : Call D} {reply : Reply}
    (hk : s.calls[k]? = some call) (hreply : ReplyRel a call reply) (hnew : k ∉ s.answered)
    (hinc : (s.hosts call.caller).incarnation = call.incarnation)
    (hp : (s.hosts call.caller).proc = some p) {i : Input D} (hi : call.input reply = some i)
    (ho : p.handle M i = some o) :
    ∃ a', Reaction R c fresh (nodeConfig c settings call.caller) call.caller a
        (s.hosts call.caller).disk p o a' ∧
      ∀ {p' out}, o.result = .ok (p', out) →
        Emits R c fresh s (k :: s.answered) call.caller p a' p' out := by
  have hmem := List.mem_of_getElem? hk
  obtain ⟨hcaller, hcallee, _, hreq⟩ := h.calls call hmem
  obtain ⟨halive, hrel, hconf⟩ := h.related hcaller hp
  have hsub : s.answered ⊆ k :: s.answered := List.subset_cons_self _ _
  cases hcr : call.request with
  | vote args =>
    rw [hcr] at hreq
    cases reply with
    | vote reply =>
      simp only [Call.input, hcr, Option.some.injEq] at hi
      rw [← hi] at ho
      cases ho
      have hout : ∀ {Q}, Answered s.calls s.answered call.caller p.node.currentTerm Q →
          p.node.currentTerm = args.term → call.callee ∉ Q := fun hans hterm hQ =>
        hnew (hans k call args hk rfl hcr hterm.symm hQ)
      obtain ⟨a', hr, hpost⟩ := halive.locked hrel (hrel.handleRequestVoteReply
        (I := fun _ => False) hconf hcallee (fun hgr => hreq.1 ▸ hreply args hcr hgr)
        (fun hcand hterm => by
          obtain ⟨Q, hQ, hans⟩ := h.ballots _ p hp hcand
          exact ⟨Q, hQ, hout hans hterm⟩)) (by rintro _ ⟨⟩) fun _ => Output.quiet
      refine ⟨a', hr, fun hres => ?_⟩
      obtain ⟨rn', _, rfl, rfl, heff, hcount⟩ := hpost hres
      refine h.emits_silent trivial trivial heff fun hcand => ?_
      obtain ⟨hold, hterm⟩ := hcount.same hcand
      obtain ⟨Q, hQ, hans⟩ := h.ballots _ p hp hold
      rw [show ({ p with node := rn' } : Proc σ D).node.currentTerm = p.node.currentTerm from hterm]
      rcases hcount.ballot hcand (hQ.mono (hr.acts.grows h.valid)) (hout hans) hcallee with
        hb | ⟨ht, hb⟩
      · exact ⟨Q, hb, fun k' call' args' hk' hc hr ht hm =>
          hsub (hans k' call' args' hk' hc hr ht hm)⟩
      · exact ⟨_, hb, hans.insert h.one_vote hk rfl hcr ht.symm⟩
    | append reply => simp [Call.input, hcr] at hi
    | snapshot reply => simp [Call.input, hcr] at hi
  | append args =>
    cases reply with
    | append reply =>
      simp only [Call.input, hcr, Option.some.injEq] at hi
      rw [← hi] at ho
      cases ho
      obtain ⟨a', hr, hpost⟩ := halive.locked hrel (hrel.handleAppendEntriesReply
        (I := fun _ => False) hconf (hreply args hcr)) (by rintro _ ⟨⟩) fun _ => Output.quiet
      refine ⟨a', hr, fun hres => ?_⟩
      obtain ⟨rn', _, rfl, rfl, hsteady⟩ := hpost hres
      exact h.emits_steady hp (hr.acts.grows h.valid) trivial trivial hsteady hsub
    | vote reply => simp [Call.input, hcr] at hi
    | snapshot reply => simp [Call.input, hcr] at hi
  | snapshot args =>
    cases reply with
    | snapshot reply =>
      simp only [Call.input, hcr, Option.some.injEq] at hi
      rw [← hi] at ho
      cases ho
      obtain ⟨a', hr, hpost⟩ := halive.locked hrel (hrel.handleInstallSnapshotReply
        (I := fun _ => False) (fun _ _ => h.sent call hmem args p hcr hinc hp))
        (by rintro _ ⟨⟩) fun _ => Output.quiet
      refine ⟨a', hr, fun hres => ?_⟩
      obtain ⟨rn', _, rfl, rfl, hsteady⟩ := hpost hres
      exact h.emits_steady hp (hr.acts.grows h.valid) trivial trivial hsteady hsub
    | vote reply => simp [Call.input, hcr] at hi
    | append reply => simp [Call.input, hcr] at hi

theorem Sim.votes_new (h : Sim R c settings fresh s a) (hrel : Related c fresh n a p.node)
    {args : RequestVoteArgs} (hterm : args.term = p.node.currentTerm + 1) (incarnation : ℕ) :
    (s.calls ++ (Output.requestVotes args).calls n incarnation (c.peerIDs n)).Pairwise
      fun x y => ¬SameVote x y := by
  refine List.pairwise_append.mpr
    ⟨h.one_vote, requestVotes_once ValidCluster.peerIDs_nodup args n incarnation, ?_⟩
  · rintro x hx y hy ⟨hcaller, _, args', _, hreq, hreq', hsame⟩
    obtain ⟨peer, _, rfl⟩ := List.mem_map.mp hy
    cases hreq'
    have hvote := (h.calls x hx).request
    rw [hreq] at hvote
    obtain ⟨r, hr, _⟩ := hvote.2.candidacy
    rw [hvote.1, hcaller] at hr
    have hle := (Invariant.votes h.valid).candidacy_term hr
    rw [hrel.node.term] at hle
    omega

theorem Sim.electionTimeout (h : Sim R c settings fresh s a) (hn : n ∈ c.members)
    (hp : (s.hosts n).proc = some p) (ho : p.handle M .electionTimeout = some o) :
    ∃ a', Reaction R c fresh (nodeConfig c settings n) n a (s.hosts n).disk p o a' ∧
      ∀ {p' out}, o.result = .ok (p', out) → Emits R c fresh s s.answered n p a' p' out := by
  obtain ⟨halive, hrel, hconf⟩ := h.related hn hp
  rw [Proc.handle] at ho
  split at ho
  · cases ho
  cases ho
  obtain ⟨a', hr, hpost⟩ := halive.locked hrel
    (hrel.startElectionLocked (I := fun _ => False) hconf) (by rintro _ ⟨⟩) Output.ofElection
  refine ⟨a', hr, fun hres => ?_⟩
  obtain ⟨rn', request, rfl, rfl, heff, hstart⟩ := hpost hres
  have hcounted : ∀ {calls : List (Call D)}, (∀ call ∈ calls, CallRel R c fresh a' call) →
      rn'.state = .candidate → ∃ Q, Ballot c a' n rn' Q ∧
        Answered calls s.answered n rn'.currentTerm Q := by
    intro calls hcalls hcand
    refine ⟨{n}, ⟨Finset.singleton_subset_iff.mpr hn, ?_, ?_⟩, ?_⟩
    · rw [hstart.candidate hcand, Finset.card_singleton]
    · intro w hw
      rw [Finset.mem_singleton.mp hw, hstart.term]
      exact hstart.own
    · intro k call args hk hcaller _ _ hQ
      have := (hcalls call (List.mem_of_getElem? hk)).distinct
      exact absurd ((Finset.mem_singleton.mp hQ).trans hcaller.symm) this
  have hold : ∀ call ∈ s.calls, CallRel R c fresh a' call := fun call hc =>
    (h.calls call hc).mono (hr.acts.grows h.valid)
  cases request with
  | none => exact h.emits_silent trivial trivial heff (hcounted hold)
  | some args =>
    obtain ⟨hterm, hname, hvote⟩ := hstart.request args rfl
    have hnew : ∀ call ∈ (Output.requestVotes args).calls n (s.hosts n).incarnation p.node.peers,
        CallRel R c fresh a' call := by
      intro call hc
      obtain ⟨peer, hpeer, rfl⟩ := List.mem_map.mp hc
      rw [hconf.peers, ValidCluster.mem_peerIDs] at hpeer
      exact ⟨hn, hpeer.1, hpeer.2, hname, hvote⟩
    refine ⟨trivial, heff, hnew, ?_, by rintro _ ⟨⟩, hcounted fun call hc => ?_⟩
    · rw [hconf.peers]
      exact h.votes_new hrel hterm _
    · exact (List.mem_append.mp hc).elim (hold call) (hnew call)

theorem Sim.replicate (h : Sim R c settings fresh s a) (hn : n ∈ c.members)
    (hp : (s.hosts n).proc = some p) {term : ℕ} (ho : p.handle M (.replicate term) = some o) :
    ∃ a', Reaction R c fresh (nodeConfig c settings n) n a (s.hosts n).disk p o a' ∧
      ∀ {p' out}, o.result = .ok (p', out) → Emits R c fresh s s.answered n p a' p' out := by
  obtain ⟨halive, hrel, hconf⟩ := h.related hn hp
  rw [Proc.handle] at ho
  cases hround : p.node.replicationRound term with
  | error e =>
    rw [hround] at ho
    cases ho
    obtain ⟨a', hacts, hx, hf, hdead⟩ := halive.dies hrel
    refine ⟨a', ⟨hacts, hx, hf, by rintro _ _ ⟨⟩, ?_⟩, by rintro _ _ ⟨⟩⟩
    rintro _ ⟨⟩
    exact ⟨hdead, fun _ => replicationRound_error hround⟩
  | ok msgs =>
    rw [hround] at ho
    cases ho
    refine ⟨a, ⟨.refl n a, h.indexed, h.unstale, ?_, by rintro _ ⟨⟩⟩, ?_⟩
    · rintro _ _ ⟨⟩
      exact ⟨halive, le_rfl⟩
    rintro _ _ ⟨⟩
    have hmsgs := hrel.replicationRound hround
    have happend : ∀ call ∈ (Output.round term msgs).calls n (s.hosts n).incarnation p.node.peers,
        CallRel R c fresh a call ∧ ∀ args, call.request ≠ .vote args := by
      intro call hc
      obtain ⟨msg, hmem, hmsg⟩ := List.mem_filterMap.mp hc
      have hspec := hmsgs msg hmem
      cases msg with
      | append peer args =>
        cases hmsg
        dsimp only at hspec
        rw [hconf.peers, ValidCluster.mem_peerIDs] at hspec
        exact ⟨⟨hn, hspec.1.1, hspec.1.2, hspec.2⟩, by rintro _ ⟨⟩⟩
      | snapshot peer => cases hmsg
    refine ⟨trivial, (Subdued.refl _).effects, fun call hc => (happend call hc).1, ?_, ?_, ?_⟩
    · refine List.pairwise_append.mpr ⟨h.one_vote, ?_, ?_⟩
      · refine List.pairwise_of_forall_mem_list fun x hx y _ hsame => ?_
        obtain ⟨_, _, args, _, hreq, _⟩ := hsame
        exact (happend x hx).2 args hreq
      · rintro x _ y hy ⟨_, _, _, args, _, hreq, _⟩
        exact (happend y hy).2 args hreq
    · intro t ht
      obtain ⟨msg, hmem, hmsg⟩ := List.mem_filterMap.mp ht
      have hspec := hmsgs msg hmem
      cases msg with
      | append peer args => cases hmsg
      | snapshot peer =>
        cases hmsg
        dsimp only at hspec
        rw [hconf.peers, ValidCluster.mem_peerIDs] at hspec
        exact ⟨hn, hspec⟩
    · intro hcand
      obtain ⟨Q, hQ, hans⟩ := h.ballots n p hp hcand
      exact ⟨Q, hQ, hans.append (List.Subset.refl _) fun call hc _ => (happend call hc).2⟩

theorem Sim.internal (h : Sim R c settings fresh s a) (hp : (s.hosts n).proc = some p)
    {i : Input D} (hi : i.internal = true) (ho : p.handle M i = some o) :
    ∃ a', Reaction R c fresh (nodeConfig c settings n) n a (s.hosts n).disk p o a' ∧
      ∀ {p' out}, o.result = .ok (p', out) → Emits R c fresh s s.answered n p a' p' out := by
  have hn := h.member hp
  obtain ⟨halive, hrel, hconf⟩ := h.related hn hp
  have hflag : ∀ {i : Input D}, i.Numbered → p.handle M i = some o →
      (∃ p' out, o = ⟨[], .ok (p', out)⟩ ∧ p.Flagged M p' out) →
      ∃ a', Reaction R c fresh (nodeConfig c settings n) n a (s.hosts n).disk p o a' ∧
        ∀ {p' out}, o.result = .ok (p', out) → Emits R c fresh s s.answered n p a' p' out := by
    rintro i hi ho ⟨p', out, rfl, hf⟩
    obtain ⟨hr, hobs, hsub, hsilent⟩ := halive.flag_reaction hrel hf
    refine ⟨a, hr, ?_⟩
    rintro _ _ ⟨⟩
    exact h.emits_steady hp (.refl a) hobs hsilent hsub.steady (List.Subset.refl _)
  cases i with
  | start => exact hflag (i := .start) trivial ho (Proc.start_flagged ho)
  | stop =>
    refine hflag (i := .stop) trivial ho ?_
    cases ho
    exact ⟨_, _, rfl, .stopped⟩
  | electionTimeout => exact h.electionTimeout hn hp ho
  | propose command =>
    cases ho
    obtain ⟨a', hr, hpost⟩ := halive.locked hrel
      (hrel.propose (I := fun _ => False) hconf command) (by rintro _ ⟨⟩) Output.proposed
    refine ⟨a', hr, fun hres => ?_⟩
    obtain ⟨rn', appended, rfl, rfl, hsteady⟩ := hpost hres
    exact h.emits_steady hp (hr.acts.grows h.valid) trivial trivial hsteady
      (List.Subset.refl _)
  | replicate term => exact h.replicate hn hp ho
  | applier =>
    obtain ⟨a', hr, hpost⟩ := halive.applier_reaction hrel ho
    refine ⟨a', hr, fun hres => ?_⟩
    obtain ⟨hobs, hsub, hsilent⟩ := hpost hres
    exact h.emits_steady hp (hr.acts.grows h.valid) hobs hsilent hsub.steady
      (List.Subset.refl _)
  | _ => cases hi

end Inputs

/-- A snapshot is loaded only while the node leads the term that the request will carry. -/
def LoadsWhileLeading (s : System σ D) : Event D → Prop
  | .loadSnapshot j => ∀ t ∈ s.tasks[j]?, ∀ p ∈ (s.hosts t.node).proc,
      p.node.state = .leader ∧ p.node.currentTerm = t.term
  | _ => True

instance (s : System σ D) : (e : Event D) → Decidable (LoadsWhileLeading s e)
  | .loadSnapshot j => inferInstanceAs (Decidable (∀ t ∈ s.tasks[j]?,
      ∀ p ∈ (s.hosts t.node).proc, p.node.state = .leader ∧ p.node.currentTerm = t.term))
  | .boot _ | .crash _ | .act _ _ | .deliver _ | .receive _ => .isTrue trivial

section Events

variable (h : Sim R c settings fresh s a)
include h

theorem Sim.boot {rn : RaftNode D} (hn : n ∈ c.members) (hnone : (s.hosts n).proc = none)
    (hrn : newNode (nodeConfig c settings n) (s.hosts n).disk = .ok rn) :
    Sim R c settings fresh { s with
      hosts := update s.hosts n
        ⟨(s.hosts n).disk, (s.hosts n).incarnation + 1, some (Proc.boot M rn)⟩ } a := by
  obtain ⟨halive, hrole⟩ := ((h.hosts n hn).dead hnone).boots hrn
  have hhost : Progress R c settings n a (s.hosts n)
      ⟨(s.hosts n).disk, (s.hosts n).incarnation + 1, some (Proc.boot M rn)⟩ := by
    refine ⟨⟨?_, by rintro ⟨⟩⟩, Nat.le_succ _, fun _ hinc => by simp at hinc⟩
    rintro _ ⟨⟩
    exact halive
  refine h.absorb_host hn (.refl n a) h.indexed h.unstale hhost ?_
  rintro _ ⟨⟩ hcand
  exact absurd (hrole.symm.trans hcand) (by decide)

theorem Sim.crash (hp : (s.hosts n).proc = some p) :
    ∃ a', EvolvesTo c a a' ∧ Sim R c settings fresh { s with
      hosts := update s.hosts n ⟨(s.hosts n).disk, (s.hosts n).incarnation, none⟩ } a' := by
  have hn := h.member hp
  obtain ⟨halive, hrel, _⟩ := h.related hn hp
  obtain ⟨a', hacts, hx, hf, hdead⟩ := halive.dies hrel
  have hhost : Progress R c settings n a' (s.hosts n)
      ⟨(s.hosts n).disk, (s.hosts n).incarnation, none⟩ :=
    ⟨⟨by rintro _ ⟨⟩, fun _ => hdead⟩, le_rfl, by rintro _ ⟨⟩⟩
  exact ⟨a', hacts.evolves, h.absorb_host hn hacts hx hf hhost (by rintro _ ⟨⟩)⟩

theorem Sim.act {i : Input D} {out : Option (Output D)} (hi : i.internal = true)
    (hx : s.run M n i = some (t, out)) :
    ∃ a', EvolvesTo c a a' ∧ Sim R c settings fresh t a' := by
  obtain ⟨p, o, hp, ho, rfl, _⟩ := run_cases hx
  obtain ⟨a', hr, he⟩ := h.internal hp hi ho
  have hsim := h.settle (h.member hp) hp hr (List.Subset.refl _) he
  rw [settle_answered] at hsim
  exact ⟨a', hr.acts.evolves, hsim⟩

theorem Sim.answer {k : ℕ} {call : Call D} {reply : Reply} (hk : s.calls[k]? = some call)
    (hr : ReplyRel a call reply) :
    Sim R c settings fresh { s with replies := s.replies ++ [(k, reply)] } a := by
  refine { h with replies := ?_ }
  intro k' reply' hmem
  rcases List.mem_append.mp hmem with hmem | hmem
  · exact h.replies k' reply' hmem
  · cases List.mem_singleton.mp hmem
    exact ⟨call, hk, hr⟩

theorem Sim.deliver {k : ℕ} {call : Call D} {out : Option (Output D)}
    (hk : s.calls[k]? = some call)
    (hx : s.run M call.callee call.request.input = some (t, out)) :
    ∃ a', EvolvesTo c a a' ∧ Sim R c settings fresh t a' ∧ t.calls[k]? = some call ∧
      ∀ reply, out.bind Output.reply = some reply → ReplyRel a' call reply := by
  have hmem := List.mem_of_getElem? hk
  obtain ⟨p, o, hp, ho, rfl, rfl⟩ := run_cases hx
  obtain ⟨a', hr, he⟩ := h.request hmem hp ho
  have hsim := h.settle (h.calls call hmem).callee hp hr (List.Subset.refl _)
    fun hres => (he hres).1
  rw [settle_answered] at hsim
  refine ⟨a', hr.acts.evolves, hsim, getElem?_of_isPrefix (settle_calls s _ p o) hk, ?_⟩
  intro reply hreply
  obtain ⟨out, hout, hrep⟩ := Option.bind_eq_some_iff.mp hreply
  rw [StepOutcome.output] at hout
  split at hout
  · cases hout
  · rename_i p' out' hres
    cases hout
    exact (he hres).2 reply hrep

theorem Sim.receive {k : ℕ} {call : Call D} {reply : Reply} {i : Input D}
    {out : Option (Output D)} (hr : (k, reply) ∈ s.replies) (hk : s.calls[k]? = some call)
    (hopen : k ∉ s.answered) (hinc : (s.hosts call.caller).incarnation = call.incarnation)
    (hi : call.input reply = some i) (hx : s.run M call.caller i = some (t, out)) :
    ∃ a', EvolvesTo c a a' ∧
      Sim R c settings fresh { t with answered := k :: t.answered } a' := by
  obtain ⟨p, o, hp, ho, rfl, _⟩ := run_cases hx
  obtain ⟨call', hk', hreply⟩ := h.replies k reply hr
  cases hk.symm.trans hk'
  obtain ⟨a', hr, he⟩ := h.reply hk hreply hopen hinc hp hi ho
  have hsim := h.settle (h.member hp) hp hr (List.subset_cons_self k s.answered) he
  refine ⟨a', hr.acts.evolves, ?_⟩
  rwa [← congrArg System.answered (settle_answered s call.caller p o)]

theorem Sim.loadSnapshot {j : ℕ} {task : Task} {snap : Snapshot D}
    (hok : fresh → LoadsWhileLeading s (.loadSnapshot j)) (hj : s.tasks[j]? = some task)
    (hlive : (s.hosts task.node).incarnation = task.incarnation)
    (hp : (s.hosts task.node).proc = some p)
    (hsnap : (s.hosts task.node).disk.snapshot = some snap) :
    Sim R c settings fresh { s with
      tasks := s.tasks.eraseIdx j
      calls := s.calls ++ [⟨task.node, task.incarnation, task.peer,
        .snapshot (snapshotRequest task.node task.term snap)⟩] } a := by
  obtain ⟨hnode, hpeer, hne⟩ := h.tasks task (List.mem_of_getElem? hj)
  obtain ⟨halive, hrel, _⟩ := h.related hnode hp
  obtain ⟨hindex, hterm⟩ := mirrors_index halive.live.mirrors hsnap
  have hbase : snap.lastIncludedIndex = p.node.log.base := hindex
  have hcall : CallRel R c fresh a ⟨task.node, task.incarnation, task.peer,
      .snapshot (snapshotRequest task.node task.term snap)⟩ := by
    refine ⟨hnode, hpeer, hne, ⟨halive.saved_le h.valid hsnap, ?_, fun hf => ?_, fun hf => ?_⟩,
      halive.saved hsnap⟩
    · change snap.lastIncludedTerm = termBefore _ _ snap.lastIncludedIndex
      rw [hterm, hbase]
      exact halive.node.sentinel
    · obtain ⟨_, hsame⟩ := hok hf task hj p hp
      have hcov := Invariant.fresh_cover h.valid (h.unstale hf) task.node
      rw [halive.node.term, hsame] at hcov
      refine hcov.mono (fun _ => id) (fun _ => id) ?_
      change snap.lastIncludedIndex ≤ _
      rw [hbase, halive.node.commit]
      exact hrel.wf.base_le
    · obtain ⟨hlead, hsame⟩ := hok hf task hj p hp
      change a.winner task.term ≠ none
      rw [← hsame, (hrel.leads hlead).2.1]
      exact Option.some_ne_none _
  refine { h with
    calls := ?_, incarnations := ?_, sent := ?_, one_vote := ?_, replies := ?_,
    tasks := fun t ht => h.tasks t (List.mem_of_mem_eraseIdx ht), ballots := ?_ }
  · intro call hc
    rcases List.mem_append.mp hc with hc | hc
    · exact h.calls call hc
    · rw [List.mem_singleton.mp hc]
      exact hcall
  · intro call hc
    rcases List.mem_append.mp hc with hc | hc
    · exact h.incarnations call hc
    · rw [List.mem_singleton.mp hc]
      exact hlive.ge
  · intro call hc args q hreq hinc hq
    rcases List.mem_append.mp hc with hc | hc
    · exact h.sent call hc args q hreq hinc hq
    · rw [List.mem_singleton.mp hc] at hreq hq
      cases hreq
      cases hp.symm.trans hq
      change snap.lastIncludedIndex ≤ _
      rw [hbase]
      exact hrel.wf.base_le
  · refine List.pairwise_append.mpr ⟨h.one_vote, List.pairwise_singleton _ _, ?_⟩
    rintro x _ y hy ⟨_, _, _, args, _, hreq, _⟩
    rw [List.mem_singleton.mp hy] at hreq
    cases hreq
  · intro k reply hr
    obtain ⟨call, hk, hrep⟩ := h.replies k reply hr
    exact ⟨call, by rw [List.getElem?_append_left (lt_of_getElem? hk)]; exact hk, hrep⟩
  · intro m q hq hcand
    obtain ⟨Q, hQ, hans⟩ := h.ballots m q hq hcand
    refine ⟨Q, hQ, hans.append (List.Subset.refl _) fun call hc _ args hreq => ?_⟩
    rw [List.mem_singleton.mp hc] at hreq
    cases hreq

theorem Sim.step {e : Event D} (hok : fresh → LoadsWhileLeading s e)
    (hst : s.step M c settings e = some t) :
    ∃ a', EvolvesTo c a a' ∧ Sim R c settings fresh t a' := by
  cases stepped_of_step hst with
  | boot n rn hn hnone hrn =>
    exact ⟨a, .refl a, h.boot (ValidCluster.mem_members.mpr hn) hnone hrn⟩
  | crash n p hp => exact h.crash hp
  | act n i t out hi hx => exact h.act hi hx
  | unsaved j task _ _ =>
    exact ⟨a, .refl a, { h with tasks := fun t ht => h.tasks t (List.mem_of_mem_eraseIdx ht) }⟩
  | loaded j task p snap hj hlive hp hsnap =>
    exact ⟨a, .refl a, h.loadSnapshot hok hj hlive hp hsnap⟩
  | ignored k call t out hk hx _ =>
    obtain ⟨a', hev, hsim, _, _⟩ := h.deliver hk hx
    exact ⟨a', hev, hsim⟩
  | answered k call u out reply hk hx hrep =>
    obtain ⟨a', hev, hsim, hk', hreply⟩ := h.deliver hk hx
    exact ⟨a', hev, hsim.answer hk' (hreply reply hrep)⟩
  | received j k reply call i u out hj hk hopen hinc hi hx =>
    exact h.receive (List.mem_of_getElem? hj) hk hopen hinc hi hx

end Events

section Runs

variable (R c settings fresh) in
theorem Sim.init : Sim R c settings fresh System.init (initial NodeId LogEntry) := by
  refine ⟨initial_invariant _ _, ?_, fun _ => id, ?_, fun _ => rfl, ?_, ?_, ?_, .nil, ?_, ?_, ?_, ?_⟩
  · intro T i e he
    cases he
  · intro n _
    refine ⟨by rintro _ ⟨⟩, fun _ => ⟨⟨_, mirrors_empty, ?_⟩, by rintro _ ⟨⟩⟩⟩
    exact ⟨rfl, rfl, rfl, rfl, rfl, rfl, rfl⟩
  all_goals simp [System.init]

/-- Along a run that starts in a related state, the abstract protocol evolves. -/
theorem Sim.runs {ok : System σ D → Event D → Prop}
    (hok : ∀ {s e}, ok s e → fresh → LoadsWhileLeading s e) (h : Sim R c settings fresh s a)
    (hrun : Runs (System.step M c settings) ok s t) :
    ∃ a', EvolvesTo c a a' ∧ Sim R c settings fresh t a' :=
  hrun.simulate Evolves.refl Evolves.trans h fun _ _ _ _ hs ho hst => hs.step (hok ho) hst

end Runs

end Raft
