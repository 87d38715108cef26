import RaftDB.RaftAccesses
import RaftDB.RaftCursors

/-!
# The bounds of a leader's cursors

In every run `nextIndex` stays between 1 and one past the leader's log, and `matchIndex` within
the log: confirmations reach no further than the log that the requests were cut from, and no
rejection points below index 1. So no section of any node ever leaves its log slice.
-/
namespace Raft

open Storage ClusterConfig TransitionSystem
open RaftNode hiding id

variable {σ D : Type}

section Hints

variable {rn rn' : RaftNode D}

/-- The hints of a rejection do not point below index 1. -/
def AppendEntriesReply.Usable (reply : AppendEntriesReply) : Prop :=
  reply.conflictTerm = 0 ∨ 1 ≤ reply.conflictIndex

theorem firstOfTerm_pos {term n first : ℕ} (h : rn.firstOfTerm term n = some first)
    (hn : 1 ≤ n) : 1 ≤ first := by
  induction n with
  | zero => omega
  | succ n ih =>
    rw [firstOfTerm] at h
    split at h
    · split at h
      · cases h
      split at h
      · exact ih h (by omega)
      · cases h
        exact hn
    · cases h
      exact hn

/-- At index 0 there is only the sentinel of a log that was never compacted. -/
theorem consistencyCheck_usable {args : AppendEntriesArgs} {reply : AppendEntriesReply}
    (hs : rn.log.base = 0 → rn.log.sentinel.term = 0)
    (h : rn.consistencyCheck args = .ok (some reply)) : reply.Usable := by
  rw [consistencyCheck] at h
  split at h
  · cases h
    exact Or.inl rfl
  split at h
  · rename_i hge
    split at h
    · cases h
    rename_i term hterm
    split at h
    · split at h
      · cases h
      rename_i first hfirst
      cases h
      by_cases hprev : 1 ≤ args.prevLogIndex
      · exact Or.inr (firstOfTerm_pos hfirst hprev)
      · have hbase : rn.log.base = 0 := by omega
        rw [show args.prevLogIndex = rn.log.base by omega, rn.log.termAt_base, hs hbase] at hterm
        cases hterm
        exact Or.inl rfl
    · cases h
  · cases h

theorem handleAppendEntries_usable {args : AppendEntriesArgs} {reply : AppendEntriesReply}
    (hs : rn.log.base = 0 → rn.log.sentinel.term = 0)
    (h : (rn.handleAppendEntries args).result = .ok (rn', reply)) : reply.Usable := by
  rw [handleAppendEntries_eq] at h
  split at h
  · cases h
    exact Or.inl rfl
  replace h : ((rn.followerOf args.term args.leaderID).acceptEntries args).result =
    .ok (rn', reply) := h
  rw [acceptEntries] at h
  split at h
  · cases h
  · rename_i hcheck
    cases h
    exact consistencyCheck_usable (by rwa [followerOf_log]) hcheck
  · dsimp only at h
    split at h
    · cases h
    · cases h
      exact Or.inl rfl

theorem lastOfTerm_pos {term k : ℕ} {es : List LogEntry} (h : lastOfTerm term es = some k) :
    1 ≤ k := by
  induction es with
  | nil => cases h
  | cons e es ih =>
    rw [lastOfTerm] at h
    split at h
    · cases h
      exact Nat.succ_pos _
    split at h
    · cases h
    · exact ih h

theorem nextIndexAfterRejection_pos {reply : AppendEntriesReply} (h : reply.Usable)
    (log : RaftLog) (prevLogIndex : ℕ) : 1 ≤ nextIndexAfterRejection log prevLogIndex reply := by
  rw [nextIndexAfterRejection]
  split
  · split
    · assumption
    split
    · assumption
    · exact le_rfl
  · rename_i hterm
    cases hlast : lastOfTerm reply.conflictTerm log.entries.reverse with
    | none => exact h.resolve_left hterm
    | some k => exact lastOfTerm_pos hlast

end Hints

section Runs

variable {M : StateMachine σ D} {c : ValidCluster} {settings : NodeId → Config}
  {s t : System σ D} {a a' : Abstract} {e : Event D} {n : NodeId} {p p' : Proc σ D} {i : Input D}

theorem Proc.Handled.elected_log {out : Output D} (h : p.Handled M i p' out)
    (hbefore : p.node.state ≠ .leader) (hafter : p'.node.state = .leader) :
    p'.node.log = p.node.log := by
  cases h with
  | started | resumed | stopped | replicated => rfl
  | stood _ hres =>
    rw [startElectionLocked, startElectionIn] at hres
    dsimp only at hres
    split at hres <;> cases hres <;> rfl
  | proposed hres =>
    obtain ⟨log, _, rfl, _⟩ := proposeAt_frame hres
    exact absurd hafter hbefore
  | voted hres =>
    rcases handleRequestVote_frame hres with heq | ⟨vote, heq⟩ <;> rw [heq]
    exact inTerm_log _ _
  | appended hres =>
    rcases handleAppendEntries_frame hres with heq | ⟨_, log, n, rfl, _⟩
    · rw [heq]
    · cases hafter
  | installed hres =>
    rcases handleInstallSnapshot_frame hres with heq | ⟨_, log, n, pending, rfl, _⟩
    · rw [heq]
    · cases hafter
  | @voteReply term reply rn' u hres =>
    have hcases := p.node.handleRequestVoteReply_cases term reply
    generalize p.node.handleRequestVoteReply term reply = o at hres hcases
    cases hcases with
    | deposed =>
      cases hres
      exact becomeFollowerLocked_log _ _
    | ignored | counted | won =>
      cases hres
      rfl
  | @appendReply peer term args reply rn' u hres =>
    have hcases := p.node.handleAppendEntriesReply_cases peer term args reply
    generalize p.node.handleAppendEntriesReply peer term args reply = o at hres hcases
    cases hcases with
    | ignored =>
      cases hres
      rfl
    | deposed =>
      cases hres
      exact becomeFollowerLocked_log _ _
    | confirmed htakes | rejected htakes => exact absurd htakes.leads hbefore
    | panicked => cases hres
  | @snapshotReply peer term args reply rn' u hres =>
    have hcases := p.node.handleInstallSnapshotReply_cases peer term args reply
    generalize p.node.handleInstallSnapshotReply peer term args reply = o at hres hcases
    cases hcases with
    | ignored =>
      cases hres
      rfl
    | deposed =>
      cases hres
      exact becomeFollowerLocked_log _ _
    | caughtUp htakes => exact absurd htakes.leads hbefore
  | applier ho hx =>
    obtain ⟨log, _, _, heq⟩ := applier_frame ho hx
    rw [heq] at hafter
    exact absurd hafter hbefore

theorem leader_last (h : Accounts M c settings s a) (hp : (s.hosts n).proc = some p)
    (hl : p.node.state = .leader) :
    p.node.log.lastLogIndex = (a.leaderLog p.node.currentTerm).length := by
  obtain ⟨halive, hrel, _⟩ := h.related (h.member hp) hp
  rw [← (hrel.leads hl).2.2.1, halive.node.length h.valid hrel.wf.numbered]

theorem uncompacted_sentinel (h : Accounts M c settings s a) (hp : (s.hosts n).proc = some p)
    (hb : p.node.log.base = 0) : p.node.log.sentinel.term = 0 := by
  obtain ⟨halive, _, _⟩ := h.related (h.member hp) hp
  rw [halive.node.sentinel, hb, ReplicatedLog.termBefore]

structure Bounded (s : System σ D) : Prop where
  reach : ∀ n p, (s.hosts n).proc = some p → p.node.InReach
  usable : ∀ k reply, (k, Reply.append reply) ∈ s.replies → reply.Usable

/-- What a leader takes as confirmed by an append reply is in its own log. -/
theorem appendReply_reach (h : Accounts M c settings s a) (hst : s.step M c settings e = some t)
    {peer : NodeId} {term : ℕ} {args : AppendEntriesArgs} {reply : AppendEntriesReply}
    (hin : s.inputOf e = some (n, .appendReply peer term args reply))
    (hp : (s.hosts n).proc = some p) (htakes : p.node.Takes term reply.term) :
    args.prevLogIndex + args.entries.length ≤ p.node.log.lastLogIndex ∧
      ∃ k, (k, Reply.append reply) ∈ s.replies := by
  cases input_origin hst hin with
  | own hi => cases hi
  | request call _ _ hi => exact absurd hi.symm call.request.input_ne_appendReply
  | reply k call answer hj hk _ hi _ =>
    obtain ⟨rfl, hreq, _, hterm⟩ := Call.input_appendReply hi
    have hrel := (h.calls call (List.mem_of_getElem? hk)).request
    rw [hreq] at hrel
    have hreach := AppendRel.reach hrel
    rw [hterm, ← htakes.same, ← leader_last h hp htakes.leads] at hreach
    exact ⟨hreach, k, List.mem_of_getElem? hj⟩

theorem caughtUpTo_bounds {rn : RaftNode D} {q peer : NodeId} {x : ℕ}
    (hx : x ≤ rn.log.lastLogIndex)
    (h : 1 ≤ rn.nextIndex peer ∧ rn.nextIndex peer ≤ rn.log.lastLogIndex + 1 ∧
      rn.matchIndex peer ≤ rn.log.lastLogIndex) :
    1 ≤ (rn.caughtUpTo q x).nextIndex peer ∧
      (rn.caughtUpTo q x).nextIndex peer ≤ rn.log.lastLogIndex + 1 ∧
      (rn.caughtUpTo q x).matchIndex peer ≤ rn.log.lastLogIndex := by
  by_cases hq : peer = q
  · subst hq
    simpa [caughtUpTo] using hx
  · simpa [caughtUpTo, hq] using h

theorem Bounded.leader_step (hb : Bounded s) (h : Accounts M c settings s a)
    (h' : Accounts M c settings t a') (hg : ReplicatedLog.Grows a a')
    (hst : s.step M c settings e = some t) {out : Output D} (hin : s.inputOf e = some (n, i))
    (hp : (s.hosts n).proc = some p) (hp' : (t.hosts n).proc = some p')
    (hh : p.Handled M i p' out) : p'.node.InReach := by
  intro hl peer hpeer
  obtain ⟨hcfg, hstep⟩ := hh.cursors
  rw [peers, hcfg] at hpeer
  have hold : p.node.state = .leader → _ := fun hlead => hb.reach n p hp hlead peer hpeer
  cases hstep hl with
  | kept hlead hterm hnext hmatch =>
    have hgrow := (hg.leaderLog p.node.currentTerm).length_le
    rw [← leader_last h hp hlead, ← hterm, ← leader_last h' hp' hl] at hgrow
    obtain ⟨hpos, hle, hmle⟩ := hold hlead
    rw [hnext, hmatch]
    exact ⟨hpos, by omega, by omega⟩
  | elected hidle hnext hmatch =>
    rw [hnext peer hpeer, hmatch, hh.elected_log hidle hl]
    exact ⟨Nat.succ_pos _, le_rfl, Nat.zero_le _⟩
  | @confirmed q term args reply ci htakes _ _ heq =>
    obtain ⟨hreach, _⟩ := appendReply_reach h hst hin hp htakes
    rw [heq]
    exact caughtUpTo_bounds hreach (hold htakes.leads)
  | @rejected q term args reply htakes hno heq =>
    obtain ⟨_, k, hk⟩ := appendReply_reach h hst hin hp htakes
    obtain ⟨hpos, hle, hmle⟩ := hold htakes.leads
    have hhint := nextIndexAfterRejection_pos (hb.usable k reply hk) p.node.log args.prevLogIndex
    have hnode : p'.node = { p.node with
        nextIndex := Function.update p.node.nextIndex q (min (p.node.nextIndex q)
          (nextIndexAfterRejection p.node.log args.prevLogIndex reply)) } := by
      cases hh with
      | appendReply hres =>
        rw [handleAppendEntriesReply_rejected htakes hno] at hres
        cases hres
        rfl
    rw [hnode]
    dsimp only
    by_cases hq : peer = q
    · subst hq
      rw [Function.update_self]
      exact ⟨by omega, by omega, hmle⟩
    · rw [Function.update_of_ne hq]
      exact ⟨hpos, hle, hmle⟩
  | @caughtUp q term args reply htakes _ heq =>
    obtain ⟨_, hcommit⟩ := h.snapshotReply_call hst hin hp
    obtain ⟨_, hrel, _⟩ := h.related (h.member hp) hp
    rw [heq]
    exact caughtUpTo_bounds (hcommit.trans hrel.wf.commit_le) (hold htakes.leads)

theorem Bounded.step (hb : Bounded s) (h : Accounts M c settings s a)
    (hst : s.step M c settings e = some t) :
    ∃ a', Accounts M c settings t a' ∧ Bounded t := by
  obtain ⟨a', hev, h'⟩ := h.step (fun hf => hf.elim) hst
  refine ⟨a', h', ?_, ?_⟩
  · intro n p' hp'
    cases proc_step hst hp' with
    | same heq =>
      rw [heq] at hp'
      exact hb.reach n p' hp'
    | boot rn hrn heq =>
      subst heq
      intro hl
      exact absurd ((newNode_follower hrn).symm.trans hl) (by decide)
    | moved p i o out hin hp ho hres =>
      exact hb.leader_step h h' (hev.grows h.valid) hst hin hp hp' (p.handled ho hres)
  · intro k reply hr
    cases reply_step hst hr with
    | old hold => exact hb.usable k reply hold
    | answer call p o p' out _ hk hp ho hres hout _ =>
      cases hreq : call.request with
      | append args =>
        rw [hreq] at ho
        cases ho
        obtain ⟨rn', r, hhandler, rfl, rfl⟩ := Proc.locked_ok hres
        cases hout
        exact handleAppendEntries_usable (uncompacted_sentinel h hp) hhandler
      | vote args | snapshot args =>
        rw [hreq] at ho
        cases ho
        obtain ⟨_, _, _, rfl, rfl⟩ := Proc.locked_ok hres
        cases hout

theorem bounded_of_runs (hrun : Runs (System.step M c settings) Always System.init s) :
    ∃ a, Accounts M c settings s a ∧ Bounded s := by
  refine hrun.invariant (P := fun s => ∃ a, Accounts M c settings s a ∧ Bounded s) ?_ ?_
  · refine ⟨_, Sim.init (Represents.nothing M) c settings False, ?_, ?_⟩
    · rintro _ _ ⟨⟩
    · rintro _ _ ⟨⟩
  · intro s e t ⟨a, h, hb⟩ _ hst
    exact hb.step h hst

/-- In every reachable state the cursors of a leader are within its log, so whatever a node is
given to do, no position in its log slice wraps around or lies outside. -/
theorem index_arithmetic_in_bounds (M : StateMachine σ D) (c : ValidCluster)
    (settings : NodeId → Config) {s : System σ D}
    (hrun : Runs (System.step M c settings) Always System.init s) {n : NodeId} {p : Proc σ D}
    (hp : (s.hosts n).proc = some p) :
    (p.node.state = .leader → ∀ peer ∈ p.node.peers, 1 ≤ p.node.nextIndex peer ∧
      p.node.nextIndex peer ≤ p.node.log.lastLogIndex + 1 ∧
      p.node.matchIndex peer ≤ p.node.log.lastLogIndex) ∧
    ∀ i : Input D, (∀ x ∈ p.accesses i, x.InBounds) ∧
      (p.Translates i → ∀ o, p.handle M i = some o → o.result ≠ .error .indexOutOfRange) := by
  obtain ⟨a, h, hb⟩ := bounded_of_runs hrun
  obtain ⟨_, hrel, _⟩ := h.related (h.member hp) hp
  have hin := Proc.accesses_inBounds hrel.wf (hb.reach n p hp)
  refine ⟨hb.reach n p hp, fun i => ⟨hin i, ?_⟩⟩
  intro hi o ho hpanic
  obtain ⟨x, hx, hout⟩ := Proc.outOfRange_exposed ho hi hpanic
  exact hout (hin i x hx)

/-- The leader of the run has compacted its log, and a peer is behind the boundary. -/
theorem index_arithmetic_in_bounds_lagging :
    ∃ s p, exec (System.step recorder trio firstCompacts) (fun _ _ => true) System.init
        (trioLags ++ [.receive 2]) = some s ∧
      (s.hosts "n1").proc = some p ∧ p.node.state = .leader ∧ p.node.log.base = 1 ∧
      p.accesses (.replicate 1) = [.slot p.node.log 1, .tail p.node.log 2,
        .slot p.node.log 1, .tail p.node.log 2] ∧
      (∀ peer ∈ p.node.peers, 1 ≤ p.node.nextIndex peer ∧
        p.node.nextIndex peer ≤ p.node.log.lastLogIndex + 1 ∧
        p.node.matchIndex peer ≤ p.node.log.lastLogIndex) ∧
      ∀ x ∈ p.accesses (.replicate 1), x.InBounds := by
  have hrun : ((exec (System.step recorder trio firstCompacts) (fun _ _ => true) System.init
      (trioLags ++ [.receive 2])).bind fun s => (s.hosts "n1").proc.map fun p =>
        decide (p.node.state = .leader ∧ p.node.log.base = 1 ∧
          p.accesses (.replicate 1) = [.slot p.node.log 1, .tail p.node.log 2,
            .slot p.node.log 1, .tail p.node.log 2])) = some true := by decide +kernel
  obtain ⟨s, hs, hmap⟩ := Option.bind_eq_some_iff.mp hrun
  obtain ⟨p, hp, hfacts⟩ := Option.map_eq_some_iff.mp hmap
  obtain ⟨hlead, hbase, hacc⟩ := of_decide_eq_true hfacts
  obtain ⟨hcursors, hin⟩ := index_arithmetic_in_bounds recorder trio firstCompacts
    (runs_of_exec (fun _ _ _ => trivial) _ hs) hp
  exact ⟨s, p, hs, hp, hlead, hbase, hacc, hcursors hlead, (hin (.replicate 1)).1⟩

end Runs

section Order

variable {M : StateMachine σ D} {c : ValidCluster} {settings : NodeId → Config}
  {s t : System σ D} {a : Abstract} {e : Event D}

/-- A rejection from a peer that has confirmed an entry to this leader before. -/
def RaftNode.Late (rn : RaftNode D) : Input D → Prop
  | .appendReply peer term _ reply =>
    rn.Takes term reply.term ∧ reply.success = false ∧ 0 < rn.matchIndex peer
  | _ => False

/-- Of each peer a leader takes in all rejections before the first confirmation. -/
def RejectionsFirst (s : System σ D) (e : Event D) : Prop :=
  ∀ x ∈ s.inputOf e, ∀ p ∈ (s.hosts x.1).proc, ¬p.node.Late x.2

theorem Bounded.nonePointsBack (hb : Bounded s) (h : Accounts M c settings s a)
    (hst : s.step M c settings e = some t) (hfirst : RejectionsFirst s e) :
    NonePointsBack s e := by
  rintro ⟨n, i⟩ hin p hp hback
  cases i with
  | appendReply peer term args reply =>
    obtain ⟨htakes, hno, hle⟩ := hback
    obtain ⟨_, k, hk⟩ := appendReply_reach h hst hin hp htakes
    have hpos := nextIndexAfterRejection_pos (hb.usable k reply hk) p.node.log args.prevLogIndex
    exact hfirst _ hin p hp ⟨htakes, hno, hpos.trans hle⟩
  | _ => exact hback

theorem nonePointsBack_of_runs
    (hrun : Runs (System.step M c settings) RejectionsFirst System.init s) :
    Runs (System.step M c settings) NonePointsBack System.init s := by
  induction hrun with
  | refl => exact .refl
  | tail hrun hfirst hst ih =>
    obtain ⟨a, h, hb⟩ := bounded_of_runs (hrun.mono fun _ _ _ => trivial)
    exact ih.tail (hb.nonePointsBack h hst hfirst) hst

/-- If no rejection is taken in after a confirmation of the same peer, every leader would next send
beyond what each peer has confirmed. -/
theorem cursors_consistent (M : StateMachine σ D) (c : ValidCluster)
    (settings : NodeId → Config) {s : System σ D}
    (hrun : Runs (System.step M c settings) RejectionsFirst System.init s) {n : NodeId}
    {p : Proc σ D} (hp : (s.hosts n).proc = some p) (hl : p.node.state = .leader) {peer : NodeId}
    (hpeer : peer ∈ p.node.peers) :
    p.node.matchIndex peer < p.node.nextIndex peer ∧
      ∀ args, p.node.outboundTo p.node.currentTerm peer = some (.append peer args) →
        p.node.matchIndex peer ≤ args.prevLogIndex := by
  have hlt := apart_of_runs (nonePointsBack_of_runs hrun) hp hl peer hpeer
  refine ⟨hlt, fun args hsend => ?_⟩
  obtain ⟨_, _, _, hprev, _⟩ := outboundTo_append hsend
  omega

instance (rn : RaftNode D) : (i : Input D) → Decidable (rn.Late i)
  | .appendReply peer term _ reply => inferInstanceAs (Decidable (rn.Takes term reply.term ∧
      reply.success = false ∧ 0 < rn.matchIndex peer))
  | .start | .stop | .electionTimeout | .propose _ | .replicate _ | .requestVote _
  | .appendEntries _ | .installSnapshot _ | .voteReply _ _ | .snapshotReply _ _ _ _
  | .applier => .isFalse id

instance (s : System σ D) (e : Event D) : Decidable (RejectionsFirst s e) :=
  inferInstanceAs (Decidable (∀ x ∈ s.inputOf e, ∀ p ∈ (s.hosts x.1).proc, ¬p.node.Late x.2))

theorem cursors_consistent_trio :
    ∃ s p, exec (System.step recorder trio firstCompacts)
        (fun s e => decide (RejectionsFirst s e)) System.init trioRetries = some s ∧
      (s.hosts "n1").proc = some p ∧ p.node.state = .leader ∧ "n2" ∈ p.node.peers ∧
      p.node.matchIndex "n2" = 2 ∧ p.node.matchIndex "n2" < p.node.nextIndex "n2" := by
  have hrun : ((exec (System.step recorder trio firstCompacts)
      (fun s e => decide (RejectionsFirst s e)) System.init trioRetries).bind fun s =>
      (s.hosts "n1").proc.map fun p =>
        (decide (p.node.state = .leader ∧ "n2" ∈ p.node.peers), p.node.matchIndex "n2")) =
      some (true, 2) := by decide +kernel
  obtain ⟨s, hs, hmap⟩ := Option.bind_eq_some_iff.mp hrun
  obtain ⟨p, hp, hpair⟩ := Option.map_eq_some_iff.mp hmap
  obtain ⟨hlead, hmatch⟩ := Prod.mk.inj hpair
  obtain ⟨hlead, hpeer⟩ := of_decide_eq_true hlead
  exact ⟨s, p, hs, hp, hlead, hpeer, hmatch, (cursors_consistent recorder trio firstCompacts
    (runs_of_exec (fun _ _ h => of_decide_eq_true h) _ hs) hp hlead hpeer).1⟩

/-- The second rejection arrives late: the leader then means to send again from index 1 what
the peer has confirmed up to index 2. -/
theorem cursors_cross :
    ∃ s p, Runs (System.step recorder trio firstCompacts) NeverStops System.init s ∧
      (s.hosts "n1").proc = some p ∧ p.node.state = .leader ∧ "n2" ∈ p.node.peers ∧
      p.node.matchIndex "n2" = 2 ∧ p.node.nextIndex "n2" = 1 := by
  have hrun : ((exec (System.step recorder trio firstCompacts)
      (fun _ e => !e.stops) System.init (trioRetries ++ [.receive 3])).bind fun s =>
      (s.hosts "n1").proc.map fun p =>
        (decide (p.node.state = .leader ∧ "n2" ∈ p.node.peers),
          p.node.matchIndex "n2", p.node.nextIndex "n2")) =
      some (true, 2, 1) := by decide +kernel
  obtain ⟨s, hs, hmap⟩ := Option.bind_eq_some_iff.mp hrun
  obtain ⟨p, hp, htriple⟩ := Option.map_eq_some_iff.mp hmap
  obtain ⟨hlead, hcursors⟩ := Prod.mk.inj htriple
  obtain ⟨hlead, hpeer⟩ := of_decide_eq_true hlead
  obtain ⟨hmatch, hnext⟩ := Prod.mk.inj hcursors
  exact ⟨s, p, runs_of_exec (fun _ _ => neverStops_of_not) _ hs, hp, hlead, hpeer, hmatch,
    hnext⟩

end Order

end Raft
