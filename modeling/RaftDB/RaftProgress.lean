import RaftDB.RaftIndexOrder

/-!
# How far a process has come

What a process has given to its state machine only grows until it ends, and it was never anything
but a follower before `Start`. Both are said of an incarnation, so that what was once true of a
process stays true until the next boot and is of no consequence after it.
-/
namespace Raft

open Storage ClusterConfig TransitionSystem
open RaftNode hiding id

variable {σ D : Type}

def Proc.progress (p : Proc σ D) : ℕ := p.phase.progress p.node

section Steps

variable {M : StateMachine σ D} {p p' : Proc σ D} {i : Input D} {o : StepOutcome σ D}
  {out : Output D}

theorem ApplierStep.progress_le (hs : ApplierStep M p o) (hok : ApplierOk p.node p.phase)
    (hx : o.result = .ok (p', out)) : p.progress ≤ p'.progress := by
  have hreach := hok.applied_le
  cases hs with
  | panic e _ => cases hx
  | park snap _ hph _ | batch _ hph _ _ | restore snap s hph _ | credit index hph
  | apply e rest size hph | capture i t data hph _ | skip i t data hph _ | save i t data hph _ =>
    cases hx
    simp only [Proc.progress, hph, Phase.progress, Phase.reach, List.length_cons,
      RaftNode.compacted] at hreach ⊢
    omega
  | finish size phase hph hphase =>
    cases hx
    rcases hphase with rfl | ⟨t, rfl, _⟩ <;>
    simp only [Proc.progress, hph, Phase.progress, List.length_nil] <;>
    omega

theorem Proc.handle_onward (hw : p.node.Wf) (hok : ApplierOk p.node p.phase) (hi : i.Numbered)
    (ho : p.handle M i = some o) (hx : o.result = .ok (p', out)) :
    p.progress ≤ p'.progress ∧ (p.node.started = true → p'.node.started = true) := by
  rcases p.handle_cases hw hi ho with ⟨rn', hm, hr⟩ | ⟨q, out', rfl, hf⟩ | ⟨_, happ⟩
  · obtain ⟨_, hst, _, _, happ⟩ := hm.settings
    have hp : p' = { p with node := rn' } := hr _ hx
    rw [hp]
    refine ⟨(p.phase.progress_of_same happ).ge, fun h => ?_⟩
    exact hst.trans h
  · cases hx
    cases hf with
    | stopped => exact ⟨le_rfl, id⟩
    | started => exact ⟨le_rfl, fun _ => rfl⟩
    | resumed => exact ⟨le_rfl, fun _ => rfl⟩
  · obtain ⟨_, _, _, hnode⟩ := p.applier_frame happ hx
    refine ⟨(p.applier_step hw hok happ).progress_le hok hx, fun h => ?_⟩
    rw [hnode]
    exact h

theorem Proc.electionTimeout_guard (ho : p.handle M .electionTimeout = some o) :
    p.node.started = true ∧ p.node.state ≠ .leader ∧
      o = p.locked p.node.startElectionLocked Output.ofElection := by
  rw [Proc.handle] at ho
  split at ho
  · cases ho
  rename_i hguard
  cases ho
  have hguard : p.node.started = true ∧ p.node.state ≠ .leader := by simpa using hguard
  exact ⟨hguard.1, hguard.2, rfl⟩

theorem reply_follows {rn rn' : RaftNode D} {u : Unit} (hf : rn.state = .follower) :
    (∀ term reply, (rn.handleRequestVoteReply term reply).result = .ok (rn', u) →
      rn'.state = .follower) ∧
    (∀ peer term args reply,
      (rn.handleAppendEntriesReply peer term args reply).result = .ok (rn', u) →
      rn'.state = .follower) ∧
    ∀ peer term args reply,
      (rn.handleInstallSnapshotReply peer term args reply).result = .ok (rn', u) →
      rn'.state = .follower := by
  have hdown : ∀ {term}, (rn.becomeFollowerLocked term).1.state = .follower := by
    intro term
    rw [becomeFollowerLocked]
    split <;> rfl
  refine ⟨?_, ?_, ?_⟩
  · intro term reply h
    have hcases := rn.handleRequestVoteReply_cases term reply
    generalize rn.handleRequestVoteReply term reply = o at h hcases
    cases hcases with
    | ignored => cases h; exact hf
    | deposed _ => cases h; exact hdown
    | counted hcand | won hcand => simp [hcand] at hf
  · intro peer term args reply h
    have hcases := rn.handleAppendEntriesReply_cases peer term args reply
    generalize rn.handleAppendEntriesReply peer term args reply = o at h hcases
    cases hcases with
    | ignored => cases h; exact hf
    | deposed _ => cases h; exact hdown
    | confirmed htakes | rejected htakes => simp [htakes.leads] at hf
    | panicked _ => cases h
  · intro peer term args reply h
    have hcases := rn.handleInstallSnapshotReply_cases peer term args reply
    generalize rn.handleInstallSnapshotReply peer term args reply = o at h hcases
    cases hcases with
    | ignored => cases h; exact hf
    | deposed _ => cases h; exact hdown
    | caughtUp htakes => simp [htakes.leads] at hf

/-- Only an election leads out of the role of a follower, and only after `Start`. -/
theorem Proc.handle_role (ho : p.handle M i = some o) (hx : o.result = .ok (p', out))
    (hrole : p'.node.state ≠ .follower) :
    p.node.state ≠ .follower ∨ p.node.started = true := by
  by_contra hnot
  obtain ⟨hfollows, hstart⟩ := not_or.mp hnot
  have hfollows : p.node.state = .follower := not_not.mp hfollows
  apply hrole
  cases Proc.handled ho hx with
  | started | resumed | stopped | replicated => exact hfollows
  | stood _ _ => exact absurd (Proc.electionTimeout_guard ho).1 hstart
  | proposed hres =>
    obtain ⟨log, n, rfl, _⟩ := proposeAt_frame hres
    exact hfollows
  | voted hres =>
    rcases handleRequestVote_frame hres with rfl | ⟨vote, rfl⟩
    · exact hfollows
    · change (p.node.inTerm _).state = .follower
      rw [inTerm]
      split
      · rfl
      · exact hfollows
  | appended hres =>
    rcases handleAppendEntries_frame hres with rfl | ⟨_, log, n, rfl, _⟩
    · exact hfollows
    · rfl
  | installed hres =>
    rcases handleInstallSnapshot_frame hres with rfl | ⟨_, log, n, pending, rfl, _⟩
    · exact hfollows
    · rfl
  | voteReply hres => exact (reply_follows hfollows).1 _ _ hres
  | appendReply hres => exact (reply_follows hfollows).2.1 _ _ _ _ hres
  | snapshotReply hres => exact (reply_follows hfollows).2.2 _ _ _ _ hres
  | applier happ hres =>
    obtain ⟨_, _, _, hnode⟩ := p.applier_frame happ hres
    rw [hnode]
    exact hfollows

end Steps

section Cluster

variable {M : StateMachine σ D} {c : ValidCluster} {settings : NodeId → Config}
  {s t : System σ D} {n : NodeId} {p : Proc σ D}

theorem process_orderly (hrun : Runs (System.step M c settings) Always System.init s)
    (hp : (s.hosts n).proc = some p) : ∃ l : Life σ D, l.Orderly ∧ l.proc = p := by
  obtain ⟨disk, rn, l, hrn, hlife, hl⟩ := process_lives hrun hp
  exact ⟨l, ((Life.boot_orderly hrn).runs hlife).1, hl⟩

theorem process_onward (hrun : Runs (System.step M c settings) Always System.init s)
    {e : Event D} (hst : s.step M c settings e = some t) {i : Input D} {o : StepOutcome σ D}
    {p' : Proc σ D} {out : Output D} (hin : s.inputOf e = some (n, i))
    (hp : (s.hosts n).proc = some p) (ho : p.handle M i = some o)
    (hx : o.result = .ok (p', out)) :
    p.progress ≤ p'.progress ∧ (p.node.started = true → p'.node.started = true) := by
  obtain ⟨l, hl, rfl⟩ := process_orderly hrun hp
  exact Proc.handle_onward hl.wf hl.applier (inputs_numbered hrun hst hin) ho hx

theorem started_of_role (hrun : Runs (System.step M c settings) Always System.init s)
    (hp : (s.hosts n).proc = some p) (hrole : p.node.state ≠ .follower) :
    p.node.started = true := by
  induction hrun generalizing p with
  | refl => cases hp
  | tail hrun _ hst ih =>
    cases proc_step hst hp with
    | same hsame =>
      rw [hsame] at hp
      exact ih hp hrole
    | boot rn hrn heq =>
      subst heq
      exact absurd (newNode_follower hrn) hrole
    | moved q i o out hin hq ho hx =>
      refine (process_onward hrun hst hin hq ho hx).2 ?_
      exact (Proc.handle_role ho hx hrole).elim (ih hq) id

theorem process_moved {e : Event D} (hst : s.step M c settings e = some t) (hboot : e ≠ .boot n)
    (hp : (t.hosts n).proc = some p) :
    (s.hosts n).proc = some p ∨ ∃ q i o out, s.inputOf e = some (n, i) ∧
      (s.hosts n).proc = some q ∧ q.handle M i = some o ∧ o.result = .ok (p, out) := by
  cases hosts_step hst with
  | input m i q o hin hq ho hu =>
    by_cases hn : n = m
    · subst hn
      rw [hu] at hp
      cases hres : o.result with
      | error err =>
        rw [settle_host_error hres] at hp
        cases hp
      | ok x =>
        rw [settle_host hres] at hp
        cases hp
        exact Or.inr ⟨q, i, o, x.2, hin, hq, ho, hres⟩
    · rw [hu, settle_host_of_ne hn] at hp
      exact Or.inl hp
  | boot m rn hin _ _ hu =>
    have hn : n ≠ m := by
      rintro rfl
      have hinc := (step_onward hst).2 n hboot
      rw [hu, Function.update_self] at hinc
      exact absurd hinc (Nat.succ_ne_self _)
    rw [hu, Function.update_of_ne hn] at hp
    exact Or.inl hp
  | crash m _ hu =>
    by_cases hn : n = m
    · subst hn
      rw [hu, Function.update_self] at hp
      cases hp
    · rw [hu, Function.update_of_ne hn] at hp
      exact Or.inl hp
  | load _ hu =>
    rw [hu] at hp
    exact Or.inl hp

/-- The incarnation is over, or it is still the current one and its process, if it has not
crashed, is started and has given at least the first `k` entries to its state machine. -/
def System.Past (s : System σ D) (n : NodeId) (inc k : ℕ) : Prop :=
  inc < (s.hosts n).incarnation ∨
    (s.hosts n).incarnation = inc ∧
      ∀ p, (s.hosts n).proc = some p → p.node.started = true ∧ k ≤ p.progress

theorem System.Past.of_proc (hp : (s.hosts n).proc = some p) (hst : p.node.started = true) :
    s.Past n (s.hosts n).incarnation p.progress := by
  refine Or.inr ⟨rfl, fun q hq => ?_⟩
  cases hp.symm.trans hq
  exact ⟨hst, le_rfl⟩

theorem System.Past.now {k : ℕ} (h : s.Past n (s.hosts n).incarnation k)
    (hp : (s.hosts n).proc = some p) : p.node.started = true ∧ k ≤ p.progress :=
  (h.resolve_left (lt_irrefl _)).2 p hp

theorem System.Past.step {e : Event D} {inc k : ℕ} (h : s.Past n inc k)
    (hrun : Runs (System.step M c settings) Always System.init s)
    (hst : s.step M c settings e = some t) : t.Past n inc k := by
  by_cases hboot : e = .boot n
  · subst hboot
    left
    rw [boot_incarnation hst]
    rcases h with hlt | ⟨heq, _⟩ <;> omega
  have hsame := (step_onward hst).2 n hboot
  rcases h with hlt | ⟨heq, hnow⟩
  · exact Or.inl (hlt.trans_eq hsame.symm)
  refine Or.inr ⟨hsame.trans heq, fun p hp => ?_⟩
  rcases process_moved hst hboot hp with hp | ⟨q, i, o, out, hin, hq, ho, hx⟩
  · exact hnow p hp
  · obtain ⟨hle, hkeeps⟩ := process_onward hrun hst hin hq ho hx
    exact ⟨hkeeps (hnow q hq).1, (hnow q hq).2.trans hle⟩

theorem System.Past.runs {inc k : ℕ} (h : s.Past n inc k)
    (hrun : Runs (System.step M c settings) Always System.init s)
    (hlater : Runs (System.step M c settings) Always s t) : t.Past n inc k := by
  induction hlater with
  | refl => exact h
  | tail hmid _ hst ih => exact ih.step (hrun.trans hmid) hst

theorem Life.Orderly.applied {l : Life σ D} (hl : l.Orderly) {o : StepOutcome σ D}
    {p' : Proc σ D} {x : LogEntry} (ho : l.proc.handle M .applier = some o)
    (hx : o.result = .ok (p', .applied x)) : p'.node.started = true ∧ x.index = p'.progress := by
  have hstep : l.step M .applier = some ⟨l.recovered, p', l.calls ++ [.apply x]⟩ := by
    rw [Life.step, ho]
    simp only [hx]
    rfl
  have hnumbered : Input.Numbered (.applier : Input D) := trivial
  have hnext := hl.step hnumbered hstep
  have hlast := hnext.last
  rw [lastIndex_concat] at hlast
  refine ⟨Bool.eq_true_of_not_eq_false fun hfalse => ?_, hlast⟩
  exact absurd (hnext.unstarted hfalse).2 (by simp)

/-- An incarnation that applied an entry has passed its index. -/
theorem past_of_applied (hrun : Runs (System.step M c settings) Always System.init s)
    {inc : ℕ} {x : LogEntry} (hob : Observation.applied n inc x ∈ s.trace) :
    s.Past n inc x.index := by
  induction hrun with
  | refl => cases hob
  | @tail u v e hrun _ hst ih =>
    by_cases hold : Observation.applied n inc x ∈ u.trace
    · exact (ih hold).step hrun hst
    obtain rfl := (step_applied hst hob).resolve_left hold
    cases stepped_of_step hst with
    | act _ _ _ out _ hx =>
      obtain ⟨q, o, hq, ho, rfl, rfl⟩ := run_cases hx
      cases traced_of_settle hob with
      | old h => exact absurd h hold
      | applied p' _ hres =>
        obtain ⟨l, hl, rfl⟩ := process_orderly hrun hq
        obtain ⟨hstarted, hprog⟩ := hl.applied ho hres
        refine Or.inr ⟨?_, fun p hp => ?_⟩
        · rw [settle_host hres]
        · rw [settle_host hres] at hp
          cases hp
          exact ⟨hstarted, hprog.le⟩

end Cluster

end Raft
