import RaftDB.RaftFrames

/-!
# Goroutines and timers

The cluster with what decides when a process does something on its own account: the election
timer, the condition variable of the applier, the channel that kicks the replication loop, and
the loops themselves, one for each election that the node has won. All of them are hints in the
sense that no handler reads them, so every run here is a run of the cluster.

The election ticker polls; a poll may come at any time. A ticker drops the ticks that nobody
receives, as Go's does.
-/
namespace Raft

open Storage ClusterConfig TransitionSystem
open RaftNode hiding id

/-- Where a goroutine of `runReplication` is: it has not run yet, it is about to start a round, or
it is in the `select`. It starts its ticker when it first runs. -/
inductive LoopStage where
  | launched
  | round (tick : ℕ)
  | select (tick : ℕ)
  deriving DecidableEq, Repr

structure Loop where
  term : ℕ
  stage : LoopStage
  deriving DecidableEq, Repr

def Loop.nextTick (l : Loop) : Option ℕ :=
  match l.stage with
  | .launched => none
  | .round tick | .select tick => some tick

structure Goroutines where
  electionResetAt : ℕ
  electionTimeout : ℕ
  /-- The applier waits for `applyCond`. -/
  asleep : Bool
  /-- The buffer of `triggerCh`. -/
  trigger : Bool
  loops : List Loop
  deriving DecidableEq, Repr

def Goroutines.init : Goroutines := ⟨0, 0, false, false, []⟩

variable {σ D : Type}

namespace RaftNode

/-- The section calls `resetElectionTimerLocked`. -/
def resetsTimer (rn : RaftNode D) : Input D → Bool
  | .start | .electionTimeout => true
  | .requestVote args => !rn.stopped && (decide (rn.currentTerm < args.term) ||
      decide (rn.currentTerm = args.term ∧ rn.upToDate args ∧
        (rn.votedFor = None ∨ rn.votedFor = args.candidateID)))
  | .appendEntries args => !rn.stopped && decide (rn.currentTerm ≤ args.term)
  | .installSnapshot args => !rn.stopped && decide (rn.currentTerm ≤ args.term)
  | .voteReply _ reply => !rn.stopped && decide (rn.currentTerm < reply.term)
  | .appendReply _ _ _ reply => !rn.stopped && decide (rn.currentTerm < reply.term)
  | .snapshotReply _ _ _ reply => !rn.stopped && decide (rn.currentTerm < reply.term)
  | _ => false

def commits (rn : RaftNode D) : Bool :=
  match rn.advanceCommitIndexLocked with
  | .error _ => false
  | .ok rn' => decide (rn.commitIndex < rn'.commitIndex)

def takes (rn : RaftNode D) (term reply : ℕ) : Bool :=
  !rn.stopped && decide (reply ≤ rn.currentTerm) && decide (rn.state = .leader) &&
    decide (rn.currentTerm = term)

/-- The section signals `applyCond`. -/
def wakesApplier (rn : RaftNode D) : Input D → Bool
  | .stop => !rn.stopped
  | .propose command => decide (rn.state = .leader) &&
      (rn.appendLogLocked [⟨rn.currentTerm, rn.log.lastLogIndex + 1, command⟩]).1.commits
  | .appendEntries args =>
    match (rn.handleAppendEntries args).result with
    | .error _ => false
    | .ok (_, reply) => reply.success && decide (rn.commitIndex < args.leaderCommit) &&
        decide (rn.commitIndex < min args.leaderCommit (args.prevLogIndex + args.entries.length))
  | .installSnapshot args => !rn.stopped && decide (rn.currentTerm ≤ args.term) &&
      decide (rn.commitIndex < args.lastIncludedIndex)
  | .appendReply peer term args reply => rn.takes term reply.term && reply.success &&
      decide (rn.matchIndex peer < args.prevLogIndex + args.entries.length) &&
      (rn.caughtUpTo peer (args.prevLogIndex + args.entries.length)).commits
  | _ => false

/-- The section, or `Propose` behind it, sends to `triggerCh`. -/
def kicks (rn : RaftNode D) : Input D → Bool
  | .propose _ => decide (rn.state = .leader)
  | .appendReply _ term _ reply => rn.takes term reply.term && !reply.success
  | _ => false

/-- The term of the replication loop that `becomeLeaderLocked` launches. -/
def launches (rn : RaftNode D) : Input D → Option ℕ
  | .electionTimeout => if 1 ≥ rn.quorum then some (rn.currentTerm + 1) else none
  | .voteReply term reply =>
    if !rn.stopped && decide (reply.term ≤ rn.currentTerm) && decide (rn.state = .candidate) &&
        decide (rn.currentTerm = term) && reply.voteGranted && decide (rn.votes + 1 = rn.quorum)
    then some rn.currentTerm else none
  | _ => none

/-- A fresh random duration; `r` is what the random source gives. -/
def randomTimeout (rn : RaftNode D) (r : ℕ) : ℕ :=
  let spread := rn.cfg.electionTimeoutMax - rn.cfg.electionTimeoutMin
  if spread > 0 then rn.cfg.electionTimeoutMin + r % spread else rn.cfg.electionTimeoutMin

end RaftNode

namespace Goroutines

/-- The goroutines may take the step: the election timer has run out, the applier is awake. A
round belongs to a loop. -/
def permits (g : Goroutines) (now : ℕ) : Input D → Bool
  | .electionTimeout => decide (g.electionTimeout ≤ now - g.electionResetAt)
  | .applier => !g.asleep
  | .replicate _ => false
  | _ => true

def notify (g : Goroutines) (now r : ℕ) (rn : RaftNode D) (i : Input D) : Goroutines where
  electionResetAt := if rn.resetsTimer i then now else g.electionResetAt
  electionTimeout := if rn.resetsTimer i then rn.randomTimeout r else g.electionTimeout
  asleep := g.asleep && !rn.wakesApplier i
  trigger := g.trigger || rn.kicks i
  loops := g.loops ++ (rn.launches i).toList.map fun term => ⟨term, .launched⟩

def setStage (g : Goroutines) (j : ℕ) (l : Loop) (stage : LoopStage) : Goroutines :=
  { g with loops := g.loops.set j ⟨l.term, stage⟩ }

def finishRound (g : Goroutines) (j : ℕ) (l : Loop) (tick : ℕ) (leads : Bool) : Goroutines :=
  if leads then g.setStage j l (.select tick) else { g with loops := g.loops.eraseIdx j }

end Goroutines

/-- The first tick behind the present time. -/
def tickAfter (tick now interval : ℕ) : ℕ := tick + interval * ((now - tick) / interval + 1)

inductive Wake where
  | stop
  | tick
  | trigger
  deriving DecidableEq, Repr

def Goroutines.select (g : Goroutines) (now : ℕ) (rn : RaftNode D) (j : ℕ) (l : Loop) (tick : ℕ) :
    Wake → Option Goroutines
  | .stop => if rn.stopped then some { g with loops := g.loops.eraseIdx j } else none
  | .tick =>
    if tick ≤ now then
      some (g.setStage j l (.round (tickAfter tick now rn.cfg.heartbeatInterval)))
    else none
  | .trigger =>
    if g.trigger then some { g.setStage j l (.round tick) with trigger := false } else none

def Proc.idle (p : Proc σ D) : Bool :=
  match p.phase with
  | .waiting => p.node.started && p.node.pendingSnapshot.isNone &&
      decide (p.node.lastApplied ≥ p.node.commitIndex) && !p.node.stopped
  | _ => false

structure TimedSystem (σ D : Type) where
  sys : System σ D
  now : ℕ
  goroutines : NodeId → Goroutines

inductive TimedEvent (D : Type) where
  | wait (d : ℕ)
  /-- An event of the cluster; `r` is for the election timer. -/
  | raft (e : Event D) (r : ℕ)
  | enter (n : NodeId) (loop : ℕ)
  | round (n : NodeId) (loop : ℕ)
  | select (n : NodeId) (loop : ℕ) (wake : Wake)
  | sleep (n : NodeId)

namespace TimedSystem

def init : TimedSystem σ D := ⟨System.init, 0, fun _ => .init⟩

def permits (s : TimedSystem σ D) (e : Event D) : Bool :=
  match s.sys.inputOf e with
  | none => true
  | some (n, i) => (s.goroutines n).permits s.now i

def notified (s : TimedSystem σ D) (r : ℕ) : Event D → NodeId → Goroutines
  | .boot n => Function.update s.goroutines n .init
  | e =>
    match s.sys.inputOf e with
    | none => s.goroutines
    | some (n, i) =>
      match (s.sys.hosts n).proc with
      | none => s.goroutines
      | some p => Function.update s.goroutines n ((s.goroutines n).notify s.now r p.node i)

def withLoop (s : TimedSystem σ D) (n : NodeId) (j : ℕ)
    (f : Proc σ D → Loop → Option (TimedSystem σ D)) : Option (TimedSystem σ D) :=
  match (s.sys.hosts n).proc, (s.goroutines n).loops[j]? with
  | some p, some l => f p l
  | _, _ => none

def step (M : StateMachine σ D) (c : ValidCluster) (settings : NodeId → Config)
    (s : TimedSystem σ D) : TimedEvent D → Option (TimedSystem σ D)
  | .wait d => some { s with now := s.now + d }
  | .raft e r =>
    if s.permits e then
      (s.sys.step M c settings e).map fun sys =>
        { s with sys := sys, goroutines := s.notified r e }
    else none
  | .enter n j => s.withLoop n j fun p l =>
      match l.stage with
      | .launched =>
        some { s with
          goroutines := Function.update s.goroutines n ((s.goroutines n).setStage j l
            (.round (s.now + p.node.cfg.heartbeatInterval))) }
      | _ => none
  | .round n j => s.withLoop n j fun p l =>
      match l.stage with
      | .round tick =>
        (s.sys.step M c settings (.act n (.replicate l.term))).map fun sys =>
          { s with
            sys := sys
            goroutines := Function.update s.goroutines n ((s.goroutines n).finishRound j l tick
              (decide (p.node.state = .leader ∧ p.node.currentTerm = l.term))) }
      | _ => none
  | .select n j w => s.withLoop n j fun p l =>
      match l.stage with
      | .select tick =>
        ((s.goroutines n).select s.now p.node j l tick w).map fun g =>
          { s with goroutines := Function.update s.goroutines n g }
      | _ => none
  | .sleep n =>
    match (s.sys.hosts n).proc with
    | none => none
    | some p =>
      if p.idle then
        some { s with goroutines :=
          Function.update s.goroutines n { s.goroutines n with asleep := true } }
      else none

end TimedSystem

/-! ## What a section does -/

section Sections

variable {M : StateMachine σ D} {p p' : Proc σ D} {i : Input D} {out : Output D}
  {rn rn' : RaftNode D}

structure Settings (rn rn' : RaftNode D) (i : Input D) : Prop where
  cfg : rn'.cfg = rn.cfg
  running : rn'.stopped = false → rn.stopped = false
  started : i = .start ∨ rn'.started = rn.started

theorem Settings.refl (rn : RaftNode D) : Settings rn rn i := ⟨rfl, id, Or.inr rfl⟩

theorem settings_inTerm (rn : RaftNode D) (term : ℕ) : Settings rn (rn.inTerm term) i := by
  rw [inTerm]
  split <;> exact ⟨rfl, id, Or.inr rfl⟩

theorem settings_deposed (rn : RaftNode D) (term : ℕ) :
    Settings rn (rn.becomeFollowerLocked term).1 i := by
  rw [becomeFollowerLocked]
  split <;> exact ⟨rfl, id, Or.inr rfl⟩

theorem Proc.Handled.settings (h : p.Handled M i p' out) : Settings p.node p'.node i := by
  cases h with
  | started | resumed => exact ⟨rfl, id, Or.inl rfl⟩
  | stopped => exact ⟨rfl, fun h => absurd h (by simp [RaftNode.stop]), Or.inr rfl⟩
  | stood _ hres =>
    rw [startElectionLocked, startElectionIn] at hres
    dsimp only at hres
    split at hres <;> cases hres <;> exact ⟨rfl, id, Or.inr rfl⟩
  | proposed hres =>
    obtain ⟨log, n, rfl, _⟩ := proposeAt_frame hres
    exact ⟨rfl, id, Or.inr rfl⟩
  | replicated => exact .refl _
  | voted hres =>
    rcases handleRequestVote_frame hres with rfl | ⟨vote, rfl⟩
    · exact .refl _
    · obtain ⟨hcfg, hrun, hstart⟩ := settings_inTerm p.node _
      exact ⟨hcfg, hrun, hstart⟩
  | appended hres =>
    rcases handleAppendEntries_frame hres with rfl | ⟨_, log, n, rfl, _⟩
    · exact .refl _
    · obtain ⟨hcfg, hrun, hstart⟩ := settings_inTerm p.node _
      exact ⟨hcfg, hrun, hstart⟩
  | installed hres =>
    rcases handleInstallSnapshot_frame hres with rfl | ⟨_, log, n, pending, rfl, _⟩
    · exact .refl _
    · obtain ⟨hcfg, hrun, hstart⟩ := settings_inTerm p.node _
      exact ⟨hcfg, hrun, hstart⟩
  | @voteReply term reply rn' u hres =>
    have hcases := p.node.handleRequestVoteReply_cases term reply
    generalize p.node.handleRequestVoteReply term reply = o at hres hcases
    cases hcases <;> cases hres
    · exact .refl _
    · exact settings_deposed _ _
    · exact ⟨rfl, id, Or.inr rfl⟩
    · exact ⟨rfl, id, Or.inr rfl⟩
  | @appendReply peer term args reply rn' u hres =>
    have hcases := p.node.handleAppendEntriesReply_cases peer term args reply
    generalize p.node.handleAppendEntriesReply peer term args reply = o at hres hcases
    cases hcases with
    | ignored =>
      cases hres
      exact .refl _
    | deposed =>
      cases hres
      exact settings_deposed _ _
    | confirmed _ _ _ hadv =>
      cases hres
      obtain ⟨n, rfl⟩ := advanceCommitIndexLocked_frame hadv
      exact ⟨rfl, id, Or.inr rfl⟩
    | panicked => cases hres
    | rejected =>
      cases hres
      exact ⟨rfl, id, Or.inr rfl⟩
  | @snapshotReply peer term args reply rn' u hres =>
    have hcases := p.node.handleInstallSnapshotReply_cases peer term args reply
    generalize p.node.handleInstallSnapshotReply peer term args reply = o at hres hcases
    cases hcases <;> cases hres
    · exact .refl _
    · exact settings_deposed _ _
    · exact ⟨rfl, id, Or.inr rfl⟩
  | applier ho hx =>
    obtain ⟨log, applied, pending, heq⟩ := applier_frame ho hx
    rw [heq]
    exact ⟨rfl, id, Or.inr rfl⟩

inductive RoleStep (rn rn' : RaftNode D) (i : Input D) : Prop where
  | kept : rn.launches i = none → rn'.currentTerm = rn.currentTerm → rn'.state = rn.state →
      RoleStep rn rn' i
  | follows : rn.launches i = none → rn.currentTerm ≤ rn'.currentTerm → rn'.state = .follower →
      RoleStep rn rn' i
  | stands : rn.launches i = none → rn.currentTerm < rn'.currentTerm → rn'.state = .candidate →
      RoleStep rn rn' i
  | wins : rn.launches i = some rn'.currentTerm → rn'.state = .leader →
      (rn.currentTerm < rn'.currentTerm ∨
        rn.state = .candidate ∧ rn.currentTerm = rn'.currentTerm) → RoleStep rn rn' i

theorem role_inTerm (term : ℕ) (hi : rn.launches i = none)
    (hterm : rn'.currentTerm = (rn.inTerm term).currentTerm)
    (hstate : rn'.state = (rn.inTerm term).state) : RoleStep rn rn' i := by
  rw [inTerm] at hterm hstate
  split at hterm
  · rename_i hlt
    rw [if_pos hlt] at hstate
    exact .follows hi (by rw [hterm]; exact hlt.le) hstate
  · rename_i hge
    rw [if_neg hge] at hstate
    exact .kept hi hterm hstate

theorem role_deposed {term : ℕ} (hi : rn.launches i = none) (h : rn.currentTerm < term) :
    RoleStep rn (rn.becomeFollowerLocked term).1 i := by
  rw [becomeFollowerLocked, if_pos h]
  exact .follows hi h.le rfl

theorem startElectionLocked_role {r : Option RequestVoteArgs}
    (h : rn.startElectionLocked.result = .ok (rn', r)) : RoleStep rn rn' .electionTimeout := by
  rw [startElectionLocked, startElectionIn] at h
  dsimp only at h
  split at h
  · rename_i hq
    cases h
    refine .wins ?_ rfl (Or.inl (Nat.lt_succ_self _))
    exact if_pos hq
  · rename_i hq
    cases h
    refine .stands ?_ (Nat.lt_succ_self _) rfl
    exact if_neg hq

theorem handleRequestVoteReply_role {term : ℕ} {reply : RequestVoteReply} {u : Unit}
    (h : (rn.handleRequestVoteReply term reply).result = .ok (rn', u)) :
    RoleStep rn rn' (.voteReply term reply) := by
  rw [handleRequestVoteReply] at h
  split at h
  · rename_i hs
    cases h
    exact .kept (by simp [launches, hs]) rfl rfl
  split at h
  · rename_i hlt
    cases h
    exact role_deposed (by simp [launches, not_le.mpr hlt]) hlt
  split at h
  · rename_i hother
    cases h
    refine .kept ?_ rfl rfl
    rcases hother with hstate | hterm <;> simp [launches, *]
  rename_i hs hcur hcand
  push Not at hcand
  split at h
  · rename_i hgranted
    dsimp only at h
    split at h
    · rename_i hq
      cases h
      refine .wins ?_ rfl (Or.inr ⟨hcand.1, rfl⟩)
      have hq' : rn.votes + 1 = rn.quorum := hq
      have hle : reply.term ≤ term := hcand.2 ▸ not_lt.mp hcur
      simp [launches, hs, hle, hcand.1, hcand.2, hgranted, hq', becomeLeaderLocked]
    · rename_i hq
      cases h
      refine .kept ?_ rfl rfl
      have hq' : rn.votes + 1 ≠ rn.quorum := hq
      simp [launches, hq']
  · rename_i hno
    cases h
    exact .kept (by simp [launches, hno]) rfl rfl

theorem Proc.Handled.role (h : p.Handled M i p' out) : RoleStep p.node p'.node i := by
  cases h with
  | started | resumed | stopped | replicated => exact .kept rfl rfl rfl
  | stood _ hres => exact startElectionLocked_role hres
  | proposed hres =>
    obtain ⟨log, n, rfl, _⟩ := proposeAt_frame hres
    exact .kept rfl rfl rfl
  | voted hres =>
    rcases handleRequestVote_frame hres with rfl | ⟨vote, rfl⟩
    · exact .kept rfl rfl rfl
    · exact role_inTerm _ rfl rfl rfl
  | appended hres =>
    rcases handleAppendEntries_frame hres with rfl | ⟨hterm, log, n, rfl, _⟩
    · exact .kept rfl rfl rfl
    · exact .follows rfl (by simpa [followerOf_currentTerm hterm] using hterm) rfl
  | installed hres =>
    rcases handleInstallSnapshot_frame hres with rfl | ⟨hterm, log, n, pending, rfl, _⟩
    · exact .kept rfl rfl rfl
    · exact .follows rfl (by simpa [followerOf_currentTerm hterm] using hterm) rfl
  | voteReply hres => exact handleRequestVoteReply_role hres
  | @appendReply peer term args reply rn' u hres =>
    have hcases := p.node.handleAppendEntriesReply_cases peer term args reply
    generalize p.node.handleAppendEntriesReply peer term args reply = o at hres hcases
    cases hcases with
    | deposed hlt =>
      cases hres
      exact role_deposed rfl hlt
    | confirmed _ _ _ hadv =>
      cases hres
      obtain ⟨n, rfl⟩ := advanceCommitIndexLocked_frame hadv
      exact .kept rfl rfl rfl
    | panicked => cases hres
    | ignored | rejected =>
      cases hres
      exact .kept rfl rfl rfl
  | @snapshotReply peer term args reply rn' u hres =>
    have hcases := p.node.handleInstallSnapshotReply_cases peer term args reply
    generalize p.node.handleInstallSnapshotReply peer term args reply = o at hres hcases
    cases hcases with
    | deposed hlt =>
      cases hres
      exact role_deposed rfl hlt
    | ignored | caughtUp =>
      cases hres
      exact .kept rfl rfl rfl
  | applier ho hx =>
    obtain ⟨log, applied, pending, heq⟩ := applier_frame ho hx
    rw [heq]
    exact .kept rfl rfl rfl

structure NoWork (rn rn' : RaftNode D) : Prop where
  started : rn.started = true → rn'.started = true
  pending : rn'.pendingSnapshot = rn.pendingSnapshot
  commit_le : rn'.commitIndex ≤ rn.commitIndex
  applied : rn'.lastApplied = rn.lastApplied
  stopped : rn'.stopped = rn.stopped

theorem NoWork.refl (rn : RaftNode D) : NoWork rn rn := ⟨id, rfl, le_rfl, rfl, rfl⟩

theorem noWork_inTerm (rn : RaftNode D) (term : ℕ) : NoWork rn (rn.inTerm term) := by
  rw [inTerm]
  split <;> exact ⟨id, rfl, le_rfl, rfl, rfl⟩

theorem noWork_deposed (rn : RaftNode D) (term : ℕ) :
    NoWork rn (rn.becomeFollowerLocked term).1 := by
  rw [becomeFollowerLocked]
  split <;> exact ⟨id, rfl, le_rfl, rfl, rfl⟩

theorem noWork_of_commits (hadv : rn.advanceCommitIndexLocked = .ok rn')
    (h : rn.commits = false) : NoWork rn rn' := by
  rw [commits, hadv] at h
  obtain ⟨n, rfl⟩ := advanceCommitIndexLocked_frame hadv
  exact ⟨id, rfl, not_lt.mp (of_decide_eq_false h), rfl, rfl⟩

theorem propose_noWork {command : List UInt8} {r : Option (ℕ × ℕ)}
    (h : (rn.propose command).result = .ok (rn', r))
    (hw : rn.wakesApplier (.propose command) = false) : NoWork rn rn' := by
  rw [propose, proposeAt] at h
  split at h
  · cases h
    exact .refl rn
  rename_i hlead
  dsimp only at h
  split at h
  · cases h
  · rename_i rn₁ hadv
    cases h
    simp only [wakesApplier, not_not.mp hlead, decide_true, Bool.true_and] at hw
    obtain ⟨h1, h2, h3, h4, h5⟩ := noWork_of_commits hadv hw
    exact ⟨h1, h2, h3, h4, h5⟩

theorem acceptEntries_commit {args : AppendEntriesArgs} {reply : AppendEntriesReply}
    (h : (rn.acceptEntries args).result = .ok (rn', reply)) :
    rn'.commitIndex = rn.commitIndex ∨ reply.success = true ∧ rn.commitIndex < args.leaderCommit ∧
      rn.commitIndex < min args.leaderCommit (args.prevLogIndex + args.entries.length) := by
  rw [acceptEntries] at h
  split at h
  · cases h
  · cases h
    exact Or.inl rfl
  · dsimp only at h
    split at h
    · cases h
    · rename_i rn₁ _ hwalk
      obtain ⟨log, rfl⟩ := appendWalk_frame hwalk
      cases h
      rw [advanceFollowerCommit]
      split
      · dsimp only
        split
        · rename_i hlt hmin
          exact Or.inr ⟨rfl, hlt, hmin⟩
        · exact Or.inl rfl
      · exact Or.inl rfl

theorem handleAppendEntries_noWork {args : AppendEntriesArgs} {reply : AppendEntriesReply}
    (h : (rn.handleAppendEntries args).result = .ok (rn', reply))
    (hw : rn.wakesApplier (.appendEntries args) = false) : NoWork rn rn' := by
  simp only [wakesApplier, h] at hw
  rw [handleAppendEntries_eq] at h
  split at h
  · cases h
    exact .refl rn
  have hok := Outcome.after_ok h
  obtain ⟨log, n, heq, _⟩ := acceptEntries_frame hok
  obtain ⟨h1, h2, h3, h4, h5⟩ := noWork_inTerm rn args.term
  rcases acceptEntries_commit hok with hcommit | ⟨hsuccess, hlt, hmin⟩
  · rw [heq] at hcommit ⊢
    refine ⟨h1, h2, ?_, h4, h5⟩
    exact (hcommit.trans (followerOf_commitIndex rn args.term args.leaderID)).le
  · rw [followerOf_commitIndex] at hlt hmin
    simp [hsuccess, hlt, hmin] at hw

theorem handleInstallSnapshot_noWork {args : InstallSnapshotArgs D} {reply : InstallSnapshotReply}
    (h : (rn.handleInstallSnapshot args).result = .ok (rn', reply))
    (hw : rn.wakesApplier (.installSnapshot args) = false) : NoWork rn rn' := by
  rw [handleInstallSnapshot_eq] at h
  split at h
  · cases h
    exact .refl rn
  rename_i hheeded
  push Not at hheeded
  have hle : args.lastIncludedIndex ≤ rn.commitIndex := by
    simpa [wakesApplier, hheeded.1, hheeded.2] using hw
  have hok := Outcome.after_ok h
  rw [acceptSnapshot] at hok
  dsimp only at hok
  rw [if_pos (by rw [followerOf_commitIndex]; exact hle)] at hok
  cases hok
  obtain ⟨h1, h2, h3, h4, h5⟩ := noWork_inTerm rn args.term
  exact ⟨h1, h2, h3, h4, h5⟩

theorem handleAppendEntriesReply_noWork {peer : NodeId} {term : ℕ} {args : AppendEntriesArgs}
    {reply : AppendEntriesReply} {u : Unit}
    (h : (rn.handleAppendEntriesReply peer term args reply).result = .ok (rn', u))
    (hw : rn.wakesApplier (.appendReply peer term args reply) = false) : NoWork rn rn' := by
  have hcases := rn.handleAppendEntriesReply_cases peer term args reply
  generalize rn.handleAppendEntriesReply peer term args reply = o at h hcases
  cases hcases with
  | ignored =>
    cases h
    exact .refl rn
  | deposed =>
    cases h
    exact noWork_deposed _ _
  | confirmed htakes hok hgt hadv =>
    cases h
    have hno : (rn.caughtUpTo peer (args.prevLogIndex + args.entries.length)).commits = false := by
      simpa [wakesApplier, takes, htakes.running, htakes.leads, htakes.same, hok, hgt,
        htakes.same ▸ htakes.current] using hw
    obtain ⟨h1, h2, h3, h4, h5⟩ := noWork_of_commits hadv hno
    exact ⟨h1, h2, h3, h4, h5⟩
  | panicked => cases h
  | rejected =>
    cases h
    exact ⟨id, rfl, le_rfl, rfl, rfl⟩

/-- What does not signal the applier gives it nothing to do. -/
theorem Proc.Handled.noWork (h : p.Handled M i p' out) (hi : i ≠ .applier)
    (hw : p.node.wakesApplier i = false) (hrun : p.node.stopped = false) :
    NoWork p.node p'.node ∧ p'.phase = p.phase := by
  cases h with
  | started | resumed => exact ⟨⟨fun _ => rfl, rfl, le_rfl, rfl, rfl⟩, rfl⟩
  | stopped => simp [wakesApplier, hrun] at hw
  | stood _ hres =>
    rw [startElectionLocked, startElectionIn] at hres
    dsimp only at hres
    split at hres <;> cases hres <;> exact ⟨⟨id, rfl, le_rfl, rfl, rfl⟩, rfl⟩
  | proposed hres => exact ⟨propose_noWork hres hw, rfl⟩
  | replicated => exact ⟨.refl _, rfl⟩
  | voted hres =>
    rcases handleRequestVote_frame hres with rfl | ⟨vote, rfl⟩
    · exact ⟨.refl _, rfl⟩
    · obtain ⟨h1, h2, h3, h4, h5⟩ := noWork_inTerm p.node _
      exact ⟨⟨h1, h2, h3, h4, h5⟩, rfl⟩
  | appended hres => exact ⟨handleAppendEntries_noWork hres hw, rfl⟩
  | installed hres => exact ⟨handleInstallSnapshot_noWork hres hw, rfl⟩
  | @voteReply term reply rn' u hres =>
    have hcases := p.node.handleRequestVoteReply_cases term reply
    generalize p.node.handleRequestVoteReply term reply = o at hres hcases
    cases hcases <;> cases hres
    · exact ⟨.refl _, rfl⟩
    · exact ⟨noWork_deposed _ _, rfl⟩
    · exact ⟨⟨id, rfl, le_rfl, rfl, rfl⟩, rfl⟩
    · exact ⟨⟨id, rfl, le_rfl, rfl, rfl⟩, rfl⟩
  | appendReply hres => exact ⟨handleAppendEntriesReply_noWork hres hw, rfl⟩
  | @snapshotReply peer term args reply rn' u hres =>
    have hcases := p.node.handleInstallSnapshotReply_cases peer term args reply
    generalize p.node.handleInstallSnapshotReply peer term args reply = o at hres hcases
    cases hcases <;> cases hres
    · exact ⟨.refl _, rfl⟩
    · exact ⟨noWork_deposed _ _, rfl⟩
    · exact ⟨⟨id, rfl, le_rfl, rfl, rfl⟩, rfl⟩
  | applier => exact absurd rfl hi

theorem Proc.idle_iff : p.idle = true ↔ p.phase = .waiting ∧ p.node.started = true ∧
    p.node.pendingSnapshot = none ∧ p.node.commitIndex ≤ p.node.lastApplied ∧
    p.node.stopped = false := by
  rw [Proc.idle]
  cases hph : p.phase <;> simp [and_assoc]

theorem Proc.Handled.idle (h : p.Handled M i p' out) (hi : i ≠ .applier)
    (hw : p.node.wakesApplier i = false) (hidle : p.idle = true) : p'.idle = true := by
  obtain ⟨hph, hstart, hpend, hle, hrun⟩ := Proc.idle_iff.mp hidle
  obtain ⟨⟨h1, h2, h3, h4, h5⟩, hph'⟩ := h.noWork hi hw hrun
  refine Proc.idle_iff.mpr ⟨hph'.trans hph, h1 hstart, h2.trans hpend, ?_, h5.trans hrun⟩
  rw [h4]
  exact h3.trans hle

/-- What the election timer waits for: a new term, a vote for somebody, a request of a leader
that is not behind. -/
inductive Heard (p p' : Proc σ D) : Input D → Output D → Prop where
  | term {i : Input D} {out : Output D} : p.node.currentTerm < p'.node.currentTerm →
      Heard p p' i out
  | vote {args : RequestVoteArgs} {reply : RequestVoteReply} : reply.voteGranted = true →
      Heard p p' (.requestVote args) (.voteReply reply)
  | entries {args : AppendEntriesArgs} {out : Output D} : p.node.stopped = false →
      p.node.currentTerm ≤ args.term → Heard p p' (.appendEntries args) out
  | snapshot {args : InstallSnapshotArgs D} {out : Output D} : p.node.stopped = false →
      p.node.currentTerm ≤ args.term → Heard p p' (.installSnapshot args) out

theorem handleRequestVote_resets {args : RequestVoteArgs} {reply : RequestVoteReply}
    (h : (rn.handleRequestVote args).result = .ok (rn', reply))
    (hno : rn.resetsTimer (.requestVote args) = false) :
    rn'.currentTerm = rn.currentTerm ∧ reply.voteGranted = false := by
  rw [handleRequestVote_eq] at h
  split at h
  · cases h
    exact ⟨rfl, rfl⟩
  rename_i hheeded
  push Not at hheeded
  have hrun : rn.stopped = false := by simpa using hheeded.1
  have hle : args.term ≤ rn.currentTerm := by
    by_contra hlt
    simp [resetsTimer, hrun, not_le.mp hlt] at hno
  have heq : rn.currentTerm = args.term := le_antisymm hheeded.2 hle
  rw [inTerm, if_neg (not_lt.mpr hle)] at h
  split at h
  · rename_i hgrants
    rw [grants] at hgrants
    simp [resetsTimer, hrun, heq, hgrants.1, hgrants.2] at hno
  · cases h
    exact ⟨rfl, rfl⟩

theorem handleAppendEntries_resets {args : AppendEntriesArgs} {reply : AppendEntriesReply}
    (h : (rn.handleAppendEntries args).result = .ok (rn', reply))
    (hno : rn.resetsTimer (.appendEntries args) = false) : rn' = rn := by
  simp only [resetsTimer, Bool.and_eq_false_iff, Bool.not_eq_false', decide_eq_false_iff_not,
    not_le] at hno
  rw [handleAppendEntries_eq, if_pos hno] at h
  cases h
  rfl

theorem handleInstallSnapshot_resets {args : InstallSnapshotArgs D} {reply : InstallSnapshotReply}
    (h : (rn.handleInstallSnapshot args).result = .ok (rn', reply))
    (hno : rn.resetsTimer (.installSnapshot args) = false) : rn' = rn := by
  simp only [resetsTimer, Bool.and_eq_false_iff, Bool.not_eq_false', decide_eq_false_iff_not,
    not_le] at hno
  rw [handleInstallSnapshot_eq, if_pos hno] at h
  cases h
  rfl

theorem handleRequestVoteReply_resets {term : ℕ} {reply : RequestVoteReply} {u : Unit}
    (h : (rn.handleRequestVoteReply term reply).result = .ok (rn', u))
    (hno : rn.resetsTimer (.voteReply term reply) = false) : rn'.currentTerm = rn.currentTerm := by
  rw [handleRequestVoteReply] at h
  split at h
  · cases h
    rfl
  split at h
  · rename_i hrun hlt
    simp [resetsTimer, hrun, hlt] at hno
  split at h
  · cases h
    rfl
  split at h
  · dsimp only at h
    split at h <;> cases h <;> rfl
  · cases h
    rfl

theorem handleAppendEntriesReply_resets {peer : NodeId} {term : ℕ} {args : AppendEntriesArgs}
    {reply : AppendEntriesReply} {u : Unit}
    (h : (rn.handleAppendEntriesReply peer term args reply).result = .ok (rn', u))
    (hno : rn.resetsTimer (.appendReply peer term args reply) = false) :
    rn'.currentTerm = rn.currentTerm := by
  rw [handleAppendEntriesReply] at h
  split at h
  · cases h
    rfl
  split at h
  · rename_i hrun hlt
    simp [resetsTimer, hrun, hlt] at hno
  split at h
  · cases h
    rfl
  split at h
  · dsimp only at h
    split at h
    · split at h
      · cases h
      · rename_i hadv
        cases h
        obtain ⟨n, rfl⟩ := advanceCommitIndexLocked_frame hadv
        rfl
    · cases h
      rfl
  · dsimp only at h
    split at h <;> cases h <;> rfl

theorem handleInstallSnapshotReply_resets {peer : NodeId} {term : ℕ}
    {args : InstallSnapshotArgs D} {reply : InstallSnapshotReply} {u : Unit}
    (h : (rn.handleInstallSnapshotReply peer term args reply).result = .ok (rn', u))
    (hno : rn.resetsTimer (.snapshotReply peer term args reply) = false) :
    rn'.currentTerm = rn.currentTerm := by
  rw [handleInstallSnapshotReply] at h
  split at h
  · cases h
    rfl
  split at h
  · rename_i hrun hlt
    simp [resetsTimer, hrun, hlt] at hno
  split at h
  · cases h
    rfl
  split at h <;> cases h <;> rfl

theorem Proc.Handled.term_kept (h : p.Handled M i p' out) (hno : p.node.resetsTimer i = false) :
    p'.node.currentTerm = p.node.currentTerm := by
  cases h with
  | started | resumed | stood => cases hno
  | stopped | replicated => rfl
  | proposed hres =>
    obtain ⟨log, n, rfl, _⟩ := proposeAt_frame hres
    rfl
  | voted hres => exact (handleRequestVote_resets hres hno).1
  | appended hres => rw [handleAppendEntries_resets hres hno]
  | installed hres => rw [handleInstallSnapshot_resets hres hno]
  | voteReply hres => exact handleRequestVoteReply_resets hres hno
  | appendReply hres => exact handleAppendEntriesReply_resets hres hno
  | snapshotReply hres => exact handleInstallSnapshotReply_resets hres hno
  | applier ho hx =>
    obtain ⟨log, applied, pending, heq⟩ := applier_frame ho hx
    rw [heq]

theorem Proc.Handled.resets (h : p.Handled M i p' out) (hheard : Heard p p' i out) :
    p.node.resetsTimer i = true := by
  by_contra hno
  rw [Bool.not_eq_true] at hno
  cases hheard with
  | term hlt => exact absurd (h.term_kept hno) hlt.ne'
  | vote hgranted =>
    cases h with
    | voted hres =>
      rw [(handleRequestVote_resets hres hno).2] at hgranted
      cases hgranted
  | entries hrun hle => simp [resetsTimer, hrun, hle] at hno
  | snapshot hrun hle => simp [resetsTimer, hrun, hle] at hno

end Sections

/-! ## What the goroutines are up to -/

/-- The replication loops of a node: one for its own term while it leads, and others only for
earlier terms or, once it has stepped down, for the present one. -/
structure Goroutines.Serve (g : Goroutines) (now : ℕ) (rn : RaftNode D) : Prop where
  le : ∀ l ∈ g.loops, l.term ≤ rn.currentTerm
  nodup : (g.loops.map Loop.term).Nodup
  candidate : rn.state = .candidate → ∀ l ∈ g.loops, l.term ≠ rn.currentTerm
  leader : rn.state = .leader → ∃ l ∈ g.loops, l.term = rn.currentTerm
  due : ∀ l ∈ g.loops, ∀ tick, l.nextTick = some tick → tick ≤ now + rn.cfg.heartbeatInterval

structure Goroutines.Sound (g : Goroutines) (now : ℕ) (p : Proc σ D) : Prop where
  asleep : g.asleep = true → p.idle = true
  reset_le : g.electionResetAt ≤ now
  timeout : p.node.started = true → p.node.cfg.electionTimeoutMin ≤ g.electionTimeout
  serve : p.node.stopped = false → g.Serve now p.node

section Goroutines

variable {M : StateMachine σ D} {p p' : Proc σ D} {i : Input D} {out : Output D}
  {g : Goroutines} {now r j : ℕ} {l : Loop} {rn rn' : RaftNode D}

theorem timeoutMin_le (rn : RaftNode D) (r : ℕ) :
    rn.cfg.electionTimeoutMin ≤ rn.randomTimeout r := by
  rw [randomTimeout]
  split
  · exact Nat.le_add_right _ _
  · exact le_rfl

theorem Goroutines.Sound.later (h : g.Sound now p) {later : ℕ} (hle : now ≤ later) :
    g.Sound later p := by
  refine ⟨h.asleep, h.reset_le.trans hle, h.timeout, fun hrun => ?_⟩
  obtain ⟨h1, h2, h3, h4, h5⟩ := h.serve hrun
  exact ⟨h1, h2, h3, h4, fun l hl tick ht => (h5 l hl tick ht).trans (Nat.add_le_add_right hle _)⟩

theorem Goroutines.Serve.kept (h : g.Serve now rn) {g' : Goroutines} (hloops : g'.loops = g.loops)
    (hcfg : rn'.cfg = rn.cfg) (hterm : rn'.currentTerm = rn.currentTerm)
    (hstate : rn'.state = rn.state) : g'.Serve now rn' := by
  obtain ⟨h1, h2, h3, h4, h5⟩ := h
  constructor
  · rwa [hloops, hterm]
  · rwa [hloops]
  · rwa [hloops, hterm, hstate]
  · rwa [hloops, hterm, hstate]
  · rwa [hloops, hcfg]

theorem Goroutines.Serve.notify (h : g.Serve now rn) (hr : RoleStep rn rn' i)
    (hcfg : rn'.cfg = rn.cfg) (r : ℕ) : (g.notify now r rn i).Serve now rn' := by
  have hnone : rn.launches i = none → (g.notify now r rn i).loops = g.loops := by
    intro hl
    simp [Goroutines.notify, hl]
  cases hr with
  | kept hl hterm hstate => exact h.kept (hnone hl) hcfg hterm hstate
  | follows hl hle hstate =>
    refine ⟨?_, ?_, by simp [hstate], by simp [hstate], ?_⟩ <;> rw [hnone hl]
    · exact fun l hm => (h.le l hm).trans hle
    · exact h.nodup
    · rw [hcfg]
      exact h.due
  | stands hl hlt hstate =>
    refine ⟨?_, ?_, ?_, by simp [hstate], ?_⟩ <;> rw [hnone hl]
    · exact fun l hm => (h.le l hm).trans hlt.le
    · exact h.nodup
    · exact fun _ l hm => ((h.le l hm).trans_lt hlt).ne
    · rw [hcfg]
      exact h.due
  | wins hl hstate hnew =>
    have hother : ∀ l ∈ g.loops, l.term ≤ rn'.currentTerm ∧ l.term ≠ rn'.currentTerm := by
      intro l hm
      rcases hnew with hlt | ⟨hcand, heq⟩
      · exact ⟨(h.le l hm).trans hlt.le, ((h.le l hm).trans_lt hlt).ne⟩
      · rw [← heq]
        exact ⟨h.le l hm, h.candidate hcand l hm⟩
    have hloops : (g.notify now r rn i).loops = g.loops ++ [⟨rn'.currentTerm, .launched⟩] := by
      simp [Goroutines.notify, hl]
    refine ⟨?_, ?_, by simp [hstate], ?_, ?_⟩ <;> rw [hloops]
    · simp only [List.mem_append, List.mem_singleton]
      rintro l (hm | rfl)
      · exact (hother l hm).1
      · exact le_rfl
    · rw [List.map_append]
      refine h.nodup.append (List.nodup_singleton _) ?_
      intro term hm hm'
      obtain ⟨l, hl, rfl⟩ := List.mem_map.mp hm
      exact (hother l hl).2 (by simpa using hm')
    · exact fun _ => ⟨_, List.mem_append_right _ (List.mem_singleton_self _), rfl⟩
    · rw [hcfg]
      simp only [List.mem_append, List.mem_singleton]
      rintro l (hm | rfl) tick htick
      · exact h.due l hm tick htick
      · cases htick

theorem Goroutines.Sound.notify (h : g.Sound now p) (hh : p.Handled M i p' out)
    (hi : g.permits now i = true) (r : ℕ) : (g.notify now r p.node i).Sound now p' := by
  obtain ⟨hcfg, hrun, hstart⟩ := hh.settings
  constructor
  · intro hs
    simp only [Goroutines.notify, Bool.and_eq_true, Bool.not_eq_true'] at hs
    refine hh.idle ?_ hs.2 (h.asleep hs.1)
    rintro rfl
    simp [Goroutines.permits, hs.1] at hi
  · simp only [Goroutines.notify]
    split
    · exact le_rfl
    · exact h.reset_le
  · intro hst
    simp only [Goroutines.notify, hcfg]
    split
    · exact timeoutMin_le _ _
    · rename_i hno
      rcases hstart with rfl | hsame
      · exact absurd rfl hno
      · exact h.timeout (hsame ▸ hst)
  · exact fun hs => (h.serve (hrun hs)).notify hh.role hcfg r

theorem Goroutines.Serve.erase (h : g.Serve now rn) (hj : g.loops[j]? = some l)
    (hl : rn.state = .leader → l.term ≠ rn.currentTerm) :
    Goroutines.Serve { g with loops := g.loops.eraseIdx j } now rn := by
  have hsub := List.eraseIdx_sublist g.loops j
  refine ⟨fun x hx => h.le x (hsub.subset hx), h.nodup.sublist (hsub.map _),
    fun hc x hx => h.candidate hc x (hsub.subset hx), fun hlead => ?_,
    fun x hx => h.due x (hsub.subset hx)⟩
  obtain ⟨x, hx, hterm⟩ := h.leader hlead
  refine ⟨x, ?_, hterm⟩
  obtain ⟨k, hk⟩ := List.mem_iff_getElem?.mp hx
  refine List.mem_eraseIdx_iff_getElem?.mpr ⟨k, ?_, hk⟩
  rintro rfl
  cases hk.symm.trans hj
  exact hl hlead hterm

theorem Goroutines.Serve.setStage (h : g.Serve now rn) (hj : g.loops[j]? = some l)
    {stage : LoopStage} (hdue : ∀ tick, Loop.nextTick ⟨l.term, stage⟩ = some tick →
      tick ≤ now + rn.cfg.heartbeatInterval) : (g.setStage j l stage).Serve now rn := by
  have hmap : (g.setStage j l stage).loops.map Loop.term = g.loops.map Loop.term := by
    obtain ⟨hlt, rfl⟩ := List.getElem?_eq_some_iff.mp hj
    have hlt' : j < (g.loops.map Loop.term).length := by rwa [List.length_map]
    have hget : (g.loops.map Loop.term)[j] = g.loops[j].term := by rw [List.getElem_map]
    rw [Goroutines.setStage, List.map_set, ← hget, List.set_getElem_self]
  have hterms : ∀ x ∈ (g.setStage j l stage).loops, ∃ y ∈ g.loops, y.term = x.term := by
    intro x hx
    have hx' := List.mem_map_of_mem (f := Loop.term) hx
    rw [hmap] at hx'
    exact List.mem_map.mp hx'
  constructor
  · intro x hx
    obtain ⟨y, hy, heq⟩ := hterms x hx
    exact heq ▸ h.le y hy
  · rw [hmap]
    exact h.nodup
  · intro hc x hx
    obtain ⟨y, hy, heq⟩ := hterms x hx
    exact heq ▸ h.candidate hc y hy
  · intro hlead
    obtain ⟨y, hy, heq⟩ := h.leader hlead
    have hy' := List.mem_map_of_mem (f := Loop.term) hy
    rw [← hmap] at hy'
    obtain ⟨x, hx, hxy⟩ := List.mem_map.mp hy'
    exact ⟨x, hx, hxy.trans heq⟩
  · intro x hx
    rcases List.mem_or_eq_of_mem_set hx with hx | rfl
    · exact h.due x hx
    · exact hdue

theorem Goroutines.Sound.setStage (h : g.Sound now p) (hj : g.loops[j]? = some l)
    {stage : LoopStage} (hdue : p.node.stopped = false → ∀ tick,
      Loop.nextTick ⟨l.term, stage⟩ = some tick → tick ≤ now + p.node.cfg.heartbeatInterval) :
    (g.setStage j l stage).Sound now p :=
  ⟨h.asleep, h.reset_le, h.timeout, fun hrun => (h.serve hrun).setStage hj (hdue hrun)⟩

theorem Goroutines.Sound.enter (h : g.Sound now p) (hj : g.loops[j]? = some l) :
    (g.setStage j l (.round (now + p.node.cfg.heartbeatInterval))).Sound now p := by
  apply h.setStage hj
  rintro _ _ ⟨⟩
  exact le_rfl

theorem Goroutines.Sound.finishRound (h : g.Sound now p) (hj : g.loops[j]? = some l) {tick : ℕ}
    (htick : l.nextTick = some tick) :
    (g.finishRound j l tick
      (decide (p.node.state = .leader ∧ p.node.currentTerm = l.term))).Sound now p := by
  rw [Goroutines.finishRound]
  split
  · apply h.setStage hj
    rintro hrun _ ⟨⟩
    exact (h.serve hrun).due l (List.mem_of_getElem? hj) tick htick
  · rename_i hno
    refine ⟨h.asleep, h.reset_le, h.timeout, fun hrun => ?_⟩
    refine (h.serve hrun).erase hj fun hlead heq => ?_
    simp [hlead, heq] at hno

theorem tickAfter_le {tick interval : ℕ} (hle : tick ≤ now) :
    tickAfter tick now interval ≤ now + interval := by
  have hmul := Nat.mul_div_le (now - tick) interval
  simp only [tickAfter, Nat.mul_add, Nat.mul_one]
  omega

theorem Goroutines.Sound.select (h : g.Sound now p) (hj : g.loops[j]? = some l) {tick : ℕ}
    (htick : l.nextTick = some tick) {w : Wake} {g' : Goroutines}
    (hs : g.select now p.node j l tick w = some g') : g'.Sound now p := by
  cases w with
  | stop =>
    simp only [Goroutines.select, Option.ite_none_right_eq_some, Option.some.injEq] at hs
    obtain ⟨hstop, rfl⟩ := hs
    exact ⟨h.asleep, h.reset_le, h.timeout, fun hrun => by simp [hstop] at hrun⟩
  | tick =>
    simp only [Goroutines.select, Option.ite_none_right_eq_some, Option.some.injEq] at hs
    obtain ⟨hle, rfl⟩ := hs
    apply h.setStage hj
    rintro _ _ ⟨⟩
    exact tickAfter_le hle
  | trigger =>
    simp only [Goroutines.select, Option.ite_none_right_eq_some, Option.some.injEq] at hs
    obtain ⟨_, rfl⟩ := hs
    have hround : (g.setStage j l (.round tick)).Sound now p := by
      apply h.setStage hj
      rintro hrun _ ⟨⟩
      exact (h.serve hrun).due l (List.mem_of_getElem? hj) tick htick
    exact ⟨hround.asleep, hround.reset_le, hround.timeout,
      fun hrun => (hround.serve hrun).kept rfl rfl rfl rfl⟩

theorem Goroutines.init_sound (hs : p.node.state = .follower) (hst : p.node.started = false) :
    Goroutines.init.Sound now p := by
  constructor
  · intro h
    cases h
  · exact Nat.zero_le now
  · intro h
    simp [hst] at h
  · intro _
    constructor <;> simp [Goroutines.init, hs]

end Goroutines

end Raft
