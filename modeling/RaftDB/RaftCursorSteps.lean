import RaftDB.RaftFrames

/-!
# Steps of a leader's cursors

What one step of a process does to `nextIndex` and `matchIndex`. A success and a snapshot reply
raise both together, a rejection lowers `nextIndex` alone; an election sets them anew, and
nothing else touches them while the node leads.
-/
namespace Raft

open Storage
open RaftNode hiding id

variable {σ D : Type}

inductive CursorStep (rn rn' : RaftNode D) : Input D → Prop where
  | kept {i : Input D} : rn.state = .leader → rn'.currentTerm = rn.currentTerm →
      rn'.nextIndex = rn.nextIndex → rn'.matchIndex = rn.matchIndex → CursorStep rn rn' i
  | elected {i : Input D} : rn.state ≠ .leader →
      (∀ peer ∈ rn.peers, rn'.nextIndex peer = rn.log.lastLogIndex + 1) →
      rn'.matchIndex = (fun _ => 0) → CursorStep rn rn' i
  | confirmed {peer : NodeId} {term : ℕ} {args : AppendEntriesArgs} {reply : AppendEntriesReply}
      (commitIndex : ℕ) : rn.Takes term reply.term → reply.success = true →
      rn.matchIndex peer < args.prevLogIndex + args.entries.length →
      rn' = { rn with
        matchIndex := Function.update rn.matchIndex peer
          (args.prevLogIndex + args.entries.length)
        nextIndex := Function.update rn.nextIndex peer
          (args.prevLogIndex + args.entries.length + 1)
        commitIndex := commitIndex } →
      CursorStep rn rn' (.appendReply peer term args reply)
  | rejected {peer : NodeId} {term : ℕ} {args : AppendEntriesArgs} {reply : AppendEntriesReply} :
      rn.Takes term reply.term → reply.success = false →
      rn' = { rn with
        nextIndex := Function.update rn.nextIndex peer
          (nextIndexAfterRejection rn.log args.prevLogIndex reply) } →
      CursorStep rn rn' (.appendReply peer term args reply)
  | caughtUp {peer : NodeId} {term : ℕ} {args : InstallSnapshotArgs D}
      {reply : InstallSnapshotReply} : rn.Takes term reply.term →
      rn.matchIndex peer < args.lastIncludedIndex →
      rn' = { rn with
        matchIndex := Function.update rn.matchIndex peer args.lastIncludedIndex
        nextIndex := Function.update rn.nextIndex peer (args.lastIncludedIndex + 1) } →
      CursorStep rn rn' (.snapshotReply peer term args reply)

section Steps

variable {rn rn' : RaftNode D} {i : Input D}

/-- The section keeps the configuration, and if the node leads afterwards, `CursorStep` says
what became of its cursors. -/
def CursorSpec (rn rn' : RaftNode D) (i : Input D) : Prop :=
  rn'.cfg = rn.cfg ∧ (rn'.state = .leader → CursorStep rn rn' i)

theorem CursorSpec.refl (rn : RaftNode D) (i : Input D) : CursorSpec rn rn i :=
  ⟨rfl, fun h => .kept h rfl rfl rfl⟩

theorem CursorSpec.of_follower (hc : rn'.cfg = rn.cfg) (h : rn'.state = .follower) :
    CursorSpec rn rn' i :=
  ⟨hc, fun hl => absurd (h.symm.trans hl) (by decide)⟩

theorem CursorSpec.kept (hc : rn'.cfg = rn.cfg) (hs : rn'.state = rn.state)
    (ht : rn'.currentTerm = rn.currentTerm) (hn : rn'.nextIndex = rn.nextIndex)
    (hm : rn'.matchIndex = rn.matchIndex) : CursorSpec rn rn' i :=
  ⟨hc, fun hl => .kept (hs.symm.trans hl) ht hn hm⟩

theorem CursorSpec.becomeFollower (rn : RaftNode D) (term : ℕ) (i : Input D) :
    CursorSpec rn (rn.becomeFollowerLocked term).1 i := by
  rw [becomeFollowerLocked]
  split <;> exact .of_follower rfl rfl

theorem CursorSpec.wins (hc : rn'.cfg = rn.cfg) (hs : rn.state ≠ .leader)
    (hlog : rn'.log = rn.log) : CursorSpec rn rn'.becomeLeaderLocked i := by
  refine ⟨hc, fun _ => .elected hs (fun peer hpeer => ?_) rfl⟩
  have hmem : peer ∈ rn'.peers := by
    rw [peers, hc]
    exact hpeer
  rw [becomeLeaderLocked]
  dsimp only
  rw [if_pos hmem, hlog]

theorem handleRequestVote_cursors {args : RequestVoteArgs} {reply : RequestVoteReply}
    (h : (rn.handleRequestVote args).result = .ok (rn', reply)) : CursorSpec rn rn' i := by
  rcases handleRequestVote_frame h with rfl | ⟨vote, rfl⟩
  · exact .refl _ _
  rw [inTerm]
  split
  · exact .of_follower rfl rfl
  · exact .kept rfl rfl rfl rfl rfl

theorem handleAppendEntries_cursors {args : AppendEntriesArgs} {reply : AppendEntriesReply}
    (h : (rn.handleAppendEntries args).result = .ok (rn', reply)) : CursorSpec rn rn' i := by
  rcases handleAppendEntries_frame h with rfl | ⟨_, log, n, rfl, _⟩
  · exact .refl _ _
  · refine .of_follower ?_ rfl
    exact inTerm_cfg rn args.term

theorem handleInstallSnapshot_cursors {args : InstallSnapshotArgs D}
    {reply : InstallSnapshotReply}
    (h : (rn.handleInstallSnapshot args).result = .ok (rn', reply)) : CursorSpec rn rn' i := by
  rcases handleInstallSnapshot_frame h with rfl | ⟨_, log, n, pending, rfl, _⟩
  · exact .refl _ _
  · refine .of_follower ?_ rfl
    exact inTerm_cfg rn args.term

theorem handleRequestVoteReply_cursors {term : ℕ} {reply : RequestVoteReply} {u : Unit}
    (h : (rn.handleRequestVoteReply term reply).result = .ok (rn', u)) :
    CursorSpec rn rn' i := by
  have hcases := rn.handleRequestVoteReply_cases term reply
  generalize rn.handleRequestVoteReply term reply = o at h hcases
  cases hcases with
  | ignored =>
    cases h
    exact .refl _ _
  | deposed =>
    cases h
    exact .becomeFollower rn _ _
  | counted =>
    cases h
    exact .kept rfl rfl rfl rfl rfl
  | won hcand =>
    cases h
    exact .wins rfl (by rw [hcand]; decide) rfl

theorem startElectionLocked_cursors {r : Option RequestVoteArgs} (hs : rn.state ≠ .leader)
    (h : rn.startElectionLocked.result = .ok (rn', r)) : CursorSpec rn rn' i := by
  rw [startElectionLocked, startElectionIn] at h
  dsimp only at h
  split at h <;> cases h
  · exact .wins rfl hs rfl
  · exact ⟨rfl, by rintro ⟨⟩⟩

theorem handleAppendEntriesReply_cursors {peer : NodeId} {term : ℕ} {args : AppendEntriesArgs}
    {reply : AppendEntriesReply} {u : Unit}
    (h : (rn.handleAppendEntriesReply peer term args reply).result = .ok (rn', u)) :
    CursorSpec rn rn' (.appendReply peer term args reply) := by
  have hcases := rn.handleAppendEntriesReply_cases peer term args reply
  generalize rn.handleAppendEntriesReply peer term args reply = o at h hcases
  cases hcases with
  | ignored =>
    cases h
    exact .refl _ _
  | deposed =>
    cases h
    exact .becomeFollower rn _ _
  | confirmed htakes hok hgt hadv =>
    cases h
    obtain ⟨n, rfl⟩ := advanceCommitIndexLocked_frame hadv
    exact ⟨rfl, fun _ => .confirmed n htakes hok hgt rfl⟩
  | panicked => cases h
  | rejected htakes hno =>
    cases h
    exact ⟨rfl, fun _ => .rejected htakes hno rfl⟩

theorem handleInstallSnapshotReply_cursors {peer : NodeId} {term : ℕ}
    {args : InstallSnapshotArgs D} {reply : InstallSnapshotReply} {u : Unit}
    (h : (rn.handleInstallSnapshotReply peer term args reply).result = .ok (rn', u)) :
    CursorSpec rn rn' (.snapshotReply peer term args reply) := by
  have hcases := rn.handleInstallSnapshotReply_cases peer term args reply
  generalize rn.handleInstallSnapshotReply peer term args reply = o at h hcases
  cases hcases with
  | ignored =>
    cases h
    exact .refl _ _
  | deposed =>
    cases h
    exact .becomeFollower rn _ _
  | caughtUp htakes hgt =>
    cases h
    exact ⟨rfl, fun _ => .caughtUp htakes hgt rfl⟩

/-- What any step of a process does to the cursors of its node. -/
theorem Proc.Handled.cursors {M : StateMachine σ D} {p p' : Proc σ D} {out : Output D}
    (h : p.Handled M i p' out) : CursorSpec p.node p'.node i := by
  cases h with
  | started | resumed | stopped => exact .kept rfl rfl rfl rfl rfl
  | replicated => exact .refl _ _
  | stood hs hres => exact startElectionLocked_cursors hs hres
  | proposed hres =>
    obtain ⟨log, n, rfl, _⟩ := proposeAt_frame hres
    exact .kept rfl rfl rfl rfl rfl
  | voted hres => exact handleRequestVote_cursors hres
  | appended hres => exact handleAppendEntries_cursors hres
  | installed hres => exact handleInstallSnapshot_cursors hres
  | voteReply hres => exact handleRequestVoteReply_cursors hres
  | appendReply hres => exact handleAppendEntriesReply_cursors hres
  | snapshotReply hres => exact handleInstallSnapshotReply_cursors hres
  | applier ho hx =>
    obtain ⟨log, applied, pending, heq⟩ := applier_frame ho hx
    rw [heq]
    exact .kept rfl rfl rfl rfl rfl

end Steps

end Raft
