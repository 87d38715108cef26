import RaftDB.KvRedirect
import RaftDB.RaftProgress
import RaftDB.RaftTimedRuns
import RaftDB.RaftVotes

/-!
# A leader that is heard stays

New terms come from elections only. So once the term of a leader is the latest anywhere, in the
nodes, in their directories and in the network, the leader keeps it for as long as the others hear
from it often enough not to stand. What it is sent meanwhile is of an earlier term, or of its own
term and not from a leader, since that could only be itself.
-/
namespace Raft

open Storage ClusterConfig TransitionSystem
open RaftNode hiding id

variable {σ D ρ : Type}

def Request.term : Request D → ℕ
  | .vote args => args.term
  | .append args => args.term
  | .snapshot args => args.term

def Reply.term : Reply → ℕ
  | .vote reply => reply.term
  | .append reply => reply.term
  | .snapshot reply => reply.term

/-- No later term is anywhere in the cluster. -/
structure System.TermsAtMost (s : System σ D) (T : ℕ) : Prop where
  disks : ∀ n hs, (s.hosts n).disk.hardState = some hs → hs.currentTerm ≤ T
  nodes : ∀ n p, (s.hosts n).proc = some p → p.node.currentTerm ≤ T
  calls : ∀ call ∈ s.calls, call.request.term ≤ T
  replies : ∀ k reply, (k, reply) ∈ s.replies → reply.term ≤ T
  tasks : ∀ task ∈ s.tasks, task.term ≤ T

/-- The input does not bring a later term to a node of the given term. -/
def Input.AtMost (T term : ℕ) : Input D → Prop
  | .electionTimeout => term < T
  | .requestVote args => args.term ≤ T
  | .appendEntries args => args.term ≤ T
  | .installSnapshot args => args.term ≤ T
  | .voteReply _ reply => reply.term ≤ T
  | .appendReply _ _ _ reply => reply.term ≤ T
  | .snapshotReply _ _ _ reply => reply.term ≤ T
  | _ => True

section Sections

variable {T : ℕ} {rn rn' : RaftNode D} {o : Outcome D ρ}

structure Outcome.Within (T : ℕ) (o : Outcome D ρ) : Prop where
  saved : ∀ hs ∈ hardStates o.writes, hs.currentTerm ≤ T
  node : ∀ x, o.result = .ok x → x.1.currentTerm ≤ T

theorem Outcome.Within.quiet (hrn : rn.currentTerm ≤ T) (hw : hardStates o.writes = [])
    (hr : ∀ x, o.result = .ok x → x.1.currentTerm = rn.currentTerm) : o.Within T := by
  refine ⟨?_, fun x hx => (hr x hx).trans_le hrn⟩
  rw [hw]
  exact List.forall_mem_nil _

theorem Outcome.Within.done (hrn : rn.currentTerm ≤ T) (r : ρ) : (Outcome.done rn [] r).Within T :=
  .quiet hrn rfl (by rintro _ ⟨⟩; rfl)

theorem adoptWrites_within (rn : RaftNode D) {term : ℕ} (hterm : term ≤ T) :
    ∀ hs ∈ hardStates (rn.adoptWrites term), hs.currentTerm ≤ T := by
  rw [adoptWrites]
  split
  · intro hs hmem
    rw [List.mem_singleton.mp hmem]
    exact hterm
  · exact List.forall_mem_nil _

theorem Outcome.Within.adopts (hrn : rn.currentTerm ≤ T) {term : ℕ} (hterm : term ≤ T)
    (hw : hardStates o.writes = hardStates (rn.adoptWrites term))
    (hr : ∀ x, o.result = .ok x → x.1.currentTerm = (rn.inTerm term).currentTerm) :
    o.Within T := by
  constructor
  · rw [hw]
    exact adoptWrites_within rn hterm
  · intro x hx
    rw [hr x hx, inTerm_currentTerm]
    exact max_le hrn hterm

theorem deposed_within {term : ℕ} (hrn : rn.currentTerm ≤ T) (hlt : rn.currentTerm < term)
    (hterm : term ≤ T) : (rn.deposed term).Within T := by
  have heq := rn.adoptTerm_eq term
  rw [adoptTerm, if_pos hlt] at heq
  rw [deposed, heq]
  exact .adopts hrn hterm rfl (by rintro _ ⟨⟩; rfl)

theorem startElectionLocked_within (hrn : rn.currentTerm < T) :
    rn.startElectionLocked.Within T := by
  rw [startElectionLocked, startElectionIn]
  dsimp only
  split <;>
  · constructor
    · intro hs hmem
      rw [List.mem_singleton.mp hmem]
      exact hrn
    · rintro _ ⟨⟩
      exact hrn

theorem handleRequestVote_within {args : RequestVoteArgs} (hrn : rn.currentTerm ≤ T)
    (hterm : args.term ≤ T) : (rn.handleRequestVote args).Within T := by
  rw [handleRequestVote_eq]
  split
  · exact .done hrn _
  split
  · constructor
    · change ∀ hs ∈ hardStates (_ ++ _), _
      rw [hardStates_append]
      intro hs hmem
      rcases List.mem_append.mp hmem with hmem | hmem
      · exact adoptWrites_within rn hterm hs hmem
      · rw [List.mem_singleton.mp hmem]
        exact hterm
    · rintro _ ⟨⟩
      change (rn.inTerm args.term).currentTerm ≤ T
      rw [inTerm_currentTerm]
      exact max_le hrn hterm
  · exact .adopts hrn hterm rfl (by rintro _ ⟨⟩; rfl)

theorem handleAppendEntries_within {args : AppendEntriesArgs} (hrn : rn.currentTerm ≤ T)
    (hterm : args.term ≤ T) : (rn.handleAppendEntries args).Within T := by
  rw [handleAppendEntries_eq]
  split
  · exact .done hrn _
  · refine .adopts hrn hterm ?_ fun x hx => ?_
    · change hardStates (rn.adoptWrites args.term ++ _) = _
      rw [hardStates_append, acceptEntries_hardStates, List.append_nil]
    · obtain ⟨log, n, heq, _⟩ := acceptEntries_frame (Outcome.after_ok hx)
      rw [heq]
      rfl

theorem handleInstallSnapshot_within {args : InstallSnapshotArgs D} (hrn : rn.currentTerm ≤ T)
    (hterm : args.term ≤ T) : (rn.handleInstallSnapshot args).Within T := by
  rw [handleInstallSnapshot_eq]
  split
  · exact .done hrn _
  · refine .adopts hrn hterm ?_ fun x hx => ?_
    · change hardStates (rn.adoptWrites args.term ++ _) = _
      rw [hardStates_append, acceptSnapshot_hardStates, List.append_nil]
    · obtain ⟨log, n, pending, heq, _⟩ := acceptSnapshot_frame (Outcome.after_ok hx)
      rw [heq]
      rfl

theorem handleRequestVoteReply_within {term : ℕ} {reply : RequestVoteReply}
    (hrn : rn.currentTerm ≤ T) (hterm : reply.term ≤ T) :
    (rn.handleRequestVoteReply term reply).Within T := by
  have hcases := rn.handleRequestVoteReply_cases term reply
  generalize rn.handleRequestVoteReply term reply = o at hcases ⊢
  cases hcases with
  | ignored => exact .done hrn _
  | deposed hlt => exact deposed_within hrn hlt hterm
  | counted | won => exact .quiet hrn rfl (by rintro _ ⟨⟩; rfl)

theorem handleAppendEntriesReply_within {peer : NodeId} {term : ℕ} {args : AppendEntriesArgs}
    {reply : AppendEntriesReply} (hrn : rn.currentTerm ≤ T) (hterm : reply.term ≤ T) :
    (rn.handleAppendEntriesReply peer term args reply).Within T := by
  have hcases := rn.handleAppendEntriesReply_cases peer term args reply
  generalize rn.handleAppendEntriesReply peer term args reply = o at hcases ⊢
  cases hcases with
  | ignored => exact .done hrn _
  | deposed hlt => exact deposed_within hrn hlt hterm
  | confirmed _ _ _ hadv =>
    obtain ⟨n, rfl⟩ := advanceCommitIndexLocked_frame hadv
    exact .quiet hrn rfl (by rintro _ ⟨⟩; rfl)
  | panicked => exact .quiet hrn rfl (by rintro _ ⟨⟩)
  | rejected => exact .quiet hrn rfl (by rintro _ ⟨⟩; rfl)

theorem handleInstallSnapshotReply_within {peer : NodeId} {term : ℕ}
    {args : InstallSnapshotArgs D} {reply : InstallSnapshotReply} (hrn : rn.currentTerm ≤ T)
    (hterm : reply.term ≤ T) : (rn.handleInstallSnapshotReply peer term args reply).Within T := by
  have hcases := rn.handleInstallSnapshotReply_cases peer term args reply
  generalize rn.handleInstallSnapshotReply peer term args reply = o at hcases ⊢
  cases hcases with
  | ignored => exact .done hrn _
  | deposed hlt => exact deposed_within hrn hlt hterm
  | caughtUp => exact .quiet hrn rfl (by rintro _ ⟨⟩; rfl)

theorem propose_within (command : List UInt8) (hrn : rn.currentTerm ≤ T) :
    (rn.propose command).Within T := by
  refine .quiet hrn ?_ fun x hx => ?_
  · rw [propose, proposeAt]
    split
    · rfl
    · dsimp only
      split <;> rfl
  · obtain ⟨log, n, heq, _⟩ := proposeAt_frame hx
    rw [heq]

theorem handleRequestVote_replies {args : RequestVoteArgs} {reply : RequestVoteReply}
    (h : (rn.handleRequestVote args).result = .ok (rn', reply)) : reply.term = rn'.currentTerm := by
  rw [handleRequestVote_eq] at h
  split at h
  · cases h
    rfl
  rename_i hheeded
  push Not at hheeded
  split at h <;>
  · cases h
    change args.term = (rn.inTerm args.term).currentTerm
    rw [inTerm_currentTerm]
    exact (max_eq_right hheeded.2).symm

theorem handleAppendEntries_replies {args : AppendEntriesArgs} {reply : AppendEntriesReply}
    (h : (rn.handleAppendEntries args).result = .ok (rn', reply)) :
    reply.term = rn'.currentTerm := by
  rw [handleAppendEntries_eq] at h
  split at h
  · cases h
    rfl
  have hok := Outcome.after_ok h
  generalize rn.followerOf args.term args.leaderID = rn₀ at hok
  obtain ⟨log, n, heq, _⟩ := acceptEntries_frame hok
  rw [acceptEntries] at hok
  split at hok
  · cases hok
  · rename_i hcheck
    cases hok
    rw [consistencyCheck] at hcheck
    split at hcheck
    · cases hcheck
      rfl
    split at hcheck
    · split at hcheck
      · cases hcheck
      split at hcheck
      · split at hcheck <;> cases hcheck
        rfl
      · cases hcheck
    · cases hcheck
  · dsimp only at hok
    split at hok
    · cases hok
    · rename_i rn₁ _ hwalk
      obtain ⟨log', rfl⟩ := appendWalk_frame hwalk
      cases hok
      rw [heq]

theorem handleInstallSnapshot_replies {args : InstallSnapshotArgs D} {reply : InstallSnapshotReply}
    (h : (rn.handleInstallSnapshot args).result = .ok (rn', reply)) :
    reply.term = rn'.currentTerm := by
  rw [handleInstallSnapshot_eq] at h
  split at h
  · cases h
    rfl
  have hok := Outcome.after_ok h
  rw [acceptSnapshot] at hok
  dsimp only at hok
  split at hok
  · cases hok
    rfl
  split at hok <;> cases hok
  rfl

end Sections

section Processes

variable {M : StateMachine σ D} {T : ℕ} {p p' : Proc σ D} {i : Input D} {o : StepOutcome σ D}
  {out : Output D}

structure StepOutcome.Within (T : ℕ) (o : StepOutcome σ D) : Prop where
  saved : ∀ hs ∈ hardStates o.writes, hs.currentTerm ≤ T
  node : ∀ x, o.result = .ok x → x.1.node.currentTerm ≤ T

theorem Outcome.Within.locked {o : Outcome D ρ} (h : o.Within T) (out : ρ → Output D) :
    (p.locked o out).Within T := by
  constructor
  · rw [Proc.locked_writes]
    exact h.saved
  · rintro ⟨p', x⟩ hx
    obtain ⟨rn', r, hres, rfl, _⟩ := Proc.locked_ok hx
    exact h.node _ hres

theorem StepOutcome.Within.quiet (hp : p.node.currentTerm ≤ T) (hw : hardStates o.writes = [])
    (hr : ∀ x, o.result = .ok x → x.1.node.currentTerm = p.node.currentTerm) : o.Within T := by
  refine ⟨?_, fun x hx => (hr x hx).trans_le hp⟩
  rw [hw]
  exact List.forall_mem_nil _

theorem Proc.handle_within (hp : p.node.currentTerm ≤ T) (hi : i.AtMost T p.node.currentTerm)
    (ho : p.handle M i = some o) : o.Within T := by
  cases i with
  | electionTimeout =>
    rw [Proc.handle] at ho
    split at ho <;> cases ho
    exact (startElectionLocked_within hi).locked _
  | start =>
    refine .quiet hp ?_ fun x hx => ?_
    · rw [Proc.handle, Proc.start] at ho
      split at ho
      · cases ho
      split at ho
      · cases ho
        rfl
      split at ho <;> cases ho
      rfl
    · obtain ⟨p', out⟩ := x
      cases Proc.handled ho hx <;> rfl
  | stop =>
    cases ho
    exact .quiet hp rfl (by rintro _ ⟨⟩; rfl)
  | propose command =>
    cases ho
    exact (propose_within command hp).locked _
  | replicate term =>
    rw [Proc.handle] at ho
    split at ho <;> cases ho
    · exact .quiet hp rfl (by rintro _ ⟨⟩)
    · exact .quiet hp rfl (by rintro _ ⟨⟩; rfl)
  | requestVote args =>
    cases ho
    exact (handleRequestVote_within hp hi).locked _
  | appendEntries args =>
    cases ho
    exact (handleAppendEntries_within hp hi).locked _
  | installSnapshot args =>
    cases ho
    exact (handleInstallSnapshot_within hp hi).locked _
  | voteReply term reply =>
    cases ho
    exact (handleRequestVoteReply_within hp hi).locked _
  | appendReply peer term args reply =>
    cases ho
    exact (handleAppendEntriesReply_within hp hi).locked _
  | snapshotReply peer term args reply =>
    cases ho
    exact (handleInstallSnapshotReply_within hp hi).locked _
  | applier =>
    refine .quiet hp (Proc.applier_hardStates ho) fun x hx => ?_
    obtain ⟨log, applied, pending, heq⟩ := Proc.applier_frame ho hx
    rw [heq]

theorem Proc.Handled.replies (h : p.Handled M i p' out) {reply : Reply}
    (hr : out.reply = some reply) (hi : i ≠ .applier) : reply.term = p'.node.currentTerm := by
  cases h with
  | voted hres =>
    cases hr
    exact handleRequestVote_replies hres
  | appended hres =>
    cases hr
    exact handleAppendEntries_replies hres
  | installed hres =>
    cases hr
    exact handleInstallSnapshot_replies hres
  | @stood _ r => cases r <;> cases hr
  | applier => exact absurd rfl hi
  | _ => cases hr

def Input.Deposes (rn : RaftNode D) : Input D → Prop
  | .requestVote args => rn.currentTerm < args.term
  | .appendEntries args => rn.currentTerm ≤ args.term
  | .installSnapshot args => rn.currentTerm ≤ args.term
  | .voteReply _ reply => rn.currentTerm < reply.term
  | .appendReply _ _ _ reply => rn.currentTerm < reply.term
  | .snapshotReply _ _ _ reply => rn.currentTerm < reply.term
  | _ => False

theorem Proc.Handled.leads (h : p.Handled M i p' out) (hlead : p.node.state = .leader)
    (hi : ¬i.Deposes p.node) :
    p'.node.state = .leader ∧ p'.node.currentTerm = p.node.currentTerm := by
  cases h with
  | started | resumed | stopped | replicated => exact ⟨hlead, rfl⟩
  | stood hstate => exact absurd hlead hstate
  | proposed hres =>
    obtain ⟨log, n, rfl, _⟩ := proposeAt_frame hres
    exact ⟨hlead, rfl⟩
  | @voted args rn' r hres =>
    have hsame : p.node.inTerm args.term = p.node := if_neg hi
    rcases handleRequestVote_frame hres with rfl | ⟨vote, rfl⟩
    · exact ⟨hlead, rfl⟩
    · rw [hsame]
      exact ⟨hlead, rfl⟩
  | appended hres =>
    rcases handleAppendEntries_frame hres with rfl | ⟨hterm, _⟩
    · exact ⟨hlead, rfl⟩
    · exact absurd hterm hi
  | installed hres =>
    rcases handleInstallSnapshot_frame hres with rfl | ⟨hterm, _⟩
    · exact ⟨hlead, rfl⟩
    · exact absurd hterm hi
  | @voteReply term reply rn' u hres =>
    have hcases := p.node.handleRequestVoteReply_cases term reply
    generalize p.node.handleRequestVoteReply term reply = o at hres hcases
    cases hcases with
    | ignored =>
      cases hres
      exact ⟨hlead, rfl⟩
    | deposed hlt => exact absurd hlt hi
    | counted hcand | won hcand => cases hlead.symm.trans hcand
  | @appendReply peer term args reply rn' u hres =>
    have hcases := p.node.handleAppendEntriesReply_cases peer term args reply
    generalize p.node.handleAppendEntriesReply peer term args reply = o at hres hcases
    cases hcases with
    | deposed hlt => exact absurd hlt hi
    | confirmed _ _ _ hadv =>
      cases hres
      obtain ⟨n, rfl⟩ := advanceCommitIndexLocked_frame hadv
      exact ⟨hlead, rfl⟩
    | panicked => cases hres
    | ignored | rejected =>
      cases hres
      exact ⟨hlead, rfl⟩
  | @snapshotReply peer term args reply rn' u hres =>
    have hcases := p.node.handleInstallSnapshotReply_cases peer term args reply
    generalize p.node.handleInstallSnapshotReply peer term args reply = o at hres hcases
    cases hcases with
    | deposed hlt => exact absurd hlt hi
    | ignored | caughtUp =>
      cases hres
      exact ⟨hlead, rfl⟩
  | applier ho hx =>
    obtain ⟨log, applied, pending, heq⟩ := applier_frame ho hx
    rw [heq]
    exact ⟨hlead, rfl⟩

theorem Proc.Handled.calls_term (h : p.Handled M i p' out) (hw : p.node.Wf)
    (ha : ApplierOk p.node p.phase) {n : NodeId} {inc : ℕ} {call : Call D}
    (hc : call ∈ out.calls n inc p.node.peers) : call.request.term = p'.node.currentTerm := by
  cases h with
  | stood _ hres =>
    rw [startElectionLocked, startElectionIn] at hres
    dsimp only at hres
    split at hres <;> cases hres
    · cases hc
    · obtain ⟨peer, _, rfl⟩ := List.mem_map.mp hc
      rfl
  | replicated hround =>
    obtain ⟨msg, hm, hmsg⟩ := List.mem_filterMap.mp hc
    cases msg with
    | snapshot peer => cases hmsg
    | append target args =>
      cases hmsg
      obtain ⟨_, rfl, peer, _, hout⟩ := replicationRound_mem hround hm
      exact (outboundTo_append hout).2.1
  | applier ho hx => cases p.applier_step hw ha ho <;> cases hx <;> cases hc
  | _ => cases hc

end Processes

section Cluster

variable {M : StateMachine σ D} {c : ValidCluster} {settings : NodeId → Config}
  {s t : System σ D} {n : NodeId} {p : Proc σ D} {i : Input D} {o : StepOutcome σ D} {T : ℕ}
  {cfg : Config} {e : Event D}

theorem System.TermsAtMost.settle (h : s.TermsAtMost T) (hp : (s.hosts n).proc = some p)
    (hlive : Live cfg (s.hosts n).disk p) (hi : i.AtMost T p.node.currentTerm)
    (ho : p.handle M i = some o) : (s.settle n p o).TermsAtMost T := by
  obtain ⟨hsaved, hnode⟩ := Proc.handle_within (h.nodes n p hp) hi ho
  constructor
  · intro m hs hdisk
    by_cases hm : m = n
    · subst hm
      have hlast : ((s.settle m p o).hosts m).disk = (s.hosts m).disk.writeAll o.writes := by
        cases hres : o.result with
        | error err => rw [settle_host_error hres]
        | ok x => rw [settle_host hres]
      rw [hlast, writeAll_hardState, Option.or_eq_some_iff] at hdisk
      rcases hdisk with hnew | ⟨_, hold⟩
      · exact hsaved hs (List.mem_of_getLast? hnew)
      · exact h.disks m hs hold
    · rw [settle_host_of_ne hm] at hdisk
      exact h.disks m hs hdisk
  · intro m q hq
    rcases settle_proc hq with ⟨rfl, out, hres⟩ | ⟨_, hq⟩
    · exact hnode _ hres
    · exact h.nodes m q hq
  · intro call hc
    rcases settle_new_call hc with hc | ⟨p', out, hres, hc⟩
    · exact h.calls call hc
    · rw [(Proc.handled ho hres).calls_term hlive.wf hlive.applier hc]
      exact hnode _ hres
  · rw [settle_replies]
    exact h.replies
  · intro task ht
    rcases settle_new_task ht with ht | ⟨p', out, hres, ht⟩
    · exact h.tasks task ht
    · rw [((Proc.handled ho hres).tasks hlive.wf hlive.applier ht).2.1]
      exact h.nodes n p hp

theorem Request.input_atMost {request : Request D} (h : request.term ≤ T) (term : ℕ) :
    request.input.AtMost T term := by
  cases request <;> exact h

theorem Call.input_atMost {call : Call D} {reply : Reply} (h : reply.term ≤ T)
    (hi : call.input reply = some i) (term : ℕ) : i.AtMost T term := by
  cases reply <;> rw [Call.input] at hi <;> split at hi <;> cases hi <;> exact h

/-- Only an election in the latest term brings up a later one. -/
theorem System.TermsAtMost.step (h : s.TermsAtMost T)
    (hrun : Runs (System.step M c settings) Always System.init s)
    (hst : s.step M c settings e = some t)
    (he : ∀ n p, e = .act n .electionTimeout → (s.hosts n).proc = some p →
      p.node.currentTerm < T) : t.TermsAtMost T := by
  obtain ⟨a, ha⟩ := exists_account hrun
  have hran : ∀ {n i u out}, s.run M n i = some (u, out) →
      (∀ p, (s.hosts n).proc = some p → i.AtMost T p.node.currentTerm) → u.TermsAtMost T := by
    intro n i u out hx hi
    obtain ⟨p, o, hp, ho, rfl, _⟩ := run_cases hx
    obtain ⟨halive, _, _⟩ := ha.related (ha.member hp) hp
    exact h.settle hp halive.live (hi p hp) ho
  cases stepped_of_step hst with
  | boot n rn _ _ hrn =>
    refine ⟨?_, ?_, h.calls, h.replies, h.tasks⟩
    · intro m hs hdisk
      by_cases hm : m = n
      · subst hm
        simp only [Function.update_self] at hdisk
        exact h.disks m hs hdisk
      · simp only [Function.update_of_ne hm] at hdisk
        exact h.disks m hs hdisk
    · intro m q hq
      by_cases hm : m = n
      · subst hm
        simp only [Function.update_self, Option.some.injEq] at hq
        subst hq
        have hhs := (newNodeFrom_recalls hrn).1
        change rn.hardState.currentTerm ≤ T
        rw [hhs]
        cases hdisk : (s.hosts m).disk.hardState with
        | none => exact Nat.zero_le T
        | some hs => exact h.disks m hs hdisk
      · simp only [Function.update_of_ne hm] at hq
        exact h.nodes m q hq
  | crash n p _ =>
    refine ⟨?_, ?_, h.calls, h.replies, h.tasks⟩
    · intro m hs hdisk
      by_cases hm : m = n
      · subst hm
        simp only [Function.update_self] at hdisk
        exact h.disks m hs hdisk
      · simp only [Function.update_of_ne hm] at hdisk
        exact h.disks m hs hdisk
    · intro m q hq
      by_cases hm : m = n
      · subst hm
        simp only [Function.update_self, reduceCtorEq] at hq
      · simp only [Function.update_of_ne hm] at hq
        exact h.nodes m q hq
  | act n i t out hi hx =>
    refine hran hx fun p hp => ?_
    cases i with
    | electionTimeout => exact he n p rfl hp
    | requestVote | appendEntries | installSnapshot | voteReply | appendReply | snapshotReply =>
      cases hi
    | _ => trivial
  | unsaved j task _ _ =>
    exact ⟨h.disks, h.nodes, h.calls, h.replies,
      fun task ht => h.tasks task (List.mem_of_mem_eraseIdx ht)⟩
  | loaded j task p snap htask _ _ _ =>
    refine ⟨h.disks, h.nodes, ?_, h.replies,
      fun task ht => h.tasks task (List.mem_of_mem_eraseIdx ht)⟩
    intro call hc
    rcases List.mem_append.mp hc with hc | hc
    · exact h.calls call hc
    · rw [List.mem_singleton.mp hc]
      exact h.tasks task (List.mem_of_getElem? htask)
  | ignored k call t out hk hx _ =>
    exact hran hx fun _ _ => Request.input_atMost (h.calls call (List.mem_of_getElem? hk)) _
  | answered k call u out reply hk hx hrep =>
    have hi := Request.input_atMost (h.calls call (List.mem_of_getElem? hk))
    have hu := hran hx fun _ _ => hi _
    refine ⟨hu.disks, hu.nodes, hu.calls, ?_, hu.tasks⟩
    intro k' reply' hmem
    rcases List.mem_append.mp hmem with hold | hnew
    · exact hu.replies k' reply' hold
    · cases List.mem_singleton.mp hnew
      obtain ⟨p, o, hp, ho, _, hout⟩ := run_cases hx
      rw [StepOutcome.output] at hout
      split at hout
      · cases hout
      · rename_i p' out' hres
        cases hout
        have happ : call.request.input ≠ .applier := by cases call.request <;> simp [Request.input]
        rw [(Proc.handled ho hres).replies hrep happ]
        exact (Proc.handle_within (h.nodes _ p hp) (hi _) ho).node _ hres
  | received j k reply call i u out hj hk _ _ hi hx =>
    have hle := h.replies k reply (List.mem_of_getElem? hj)
    have hu := hran hx fun _ _ => Call.input_atMost hle hi _
    exact ⟨hu.disks, hu.nodes, hu.calls, hu.replies, hu.tasks⟩

def System.Signed (s : System σ D) : Prop :=
  ∀ call ∈ s.calls, ∀ leaderID term, call.request.input.leader = some (leaderID, term) →
    leaderID = call.caller

theorem System.Signed.step (h : s.Signed)
    (hrun : Runs (System.step M c settings) Always System.init s)
    (hst : s.step M c settings e = some t) : t.Signed := by
  obtain ⟨a, ha⟩ := exists_account hrun
  have hran : ∀ {n i u out}, s.run M n i = some (u, out) → u.Signed := by
    intro n i u out hx call hc leaderID term hin
    obtain ⟨p, o, hp, ho, rfl, _⟩ := run_cases hx
    obtain ⟨halive, _, hconf⟩ := ha.related (ha.member hp) hp
    rcases settle_new_call hc with hc | ⟨p', out, hres, hc⟩
    · exact h call hc leaderID term hin
    · rw [(Output.calls_spec hc).1]
      cases (Proc.handled ho hres).calls halive.live.wf halive.live.applier hc with
      | vote args hreq =>
        rw [hreq] at hin
        cases hin
      | append peer target args hreq _ hout =>
        rw [hreq] at hin
        cases hin
        obtain ⟨_, _, hleader, _⟩ := outboundTo_append hout
        rw [hleader, hconf.named]
  cases stepped_of_step hst with
  | boot | crash | unsaved => exact h
  | loaded j task p snap _ _ _ _ =>
    intro call hc leaderID term hin
    rcases List.mem_append.mp hc with hc | hc
    · exact h call hc leaderID term hin
    · rw [List.mem_singleton.mp hc] at hin ⊢
      cases hin
      rfl
  | act n i t out _ hx | ignored k call t out _ hx _ => exact hran hx
  | answered k call u out reply _ hx _ =>
    have hu := hran hx
    exact hu
  | received j k reply call i u out _ _ _ _ _ hx =>
    have hu := hran hx
    exact hu

theorem signed_of_runs (hrun : Runs (System.step M c settings) Always System.init s) :
    s.Signed := by
  induction hrun with
  | refl =>
    intro call hc
    cases hc
  | tail hrun _ hst ih => exact ih.step hrun hst

/-- The incarnation is over, or its process leads the latest term. -/
def System.Reign (s : System σ D) (n : NodeId) (inc T : ℕ) : Prop :=
  inc < (s.hosts n).incarnation ∨ (s.hosts n).incarnation = inc ∧
    ∀ p, (s.hosts n).proc = some p →
      p.node.state = .leader ∧ p.node.currentTerm = T ∧ s.TermsAtMost T

/-- What reaches the leader of the latest term does not depose it. -/
theorem not_deposed (hrun : Runs (System.step M c settings) Always System.init s)
    (hp : (s.hosts n).proc = some p) (hlead : p.node.state = .leader)
    (hterms : s.TermsAtMost p.node.currentTerm) (hst : s.step M c settings e = some t)
    (hin : s.inputOf e = some (n, i)) : ¬i.Deposes p.node := by
  have hhints := hinted_of_runs hrun
  obtain ⟨a, ha⟩ := exists_account hrun
  have hself : ∀ call ∈ s.calls, call.callee = n → ∀ leaderID,
      call.request.input.leader ≠ some (leaderID, p.node.currentTerm) := by
    intro call hc hcallee leaderID hleader
    have heq := elected_unique hrun (hhints.calls call hc _ _ hleader) (hhints.leading hp hlead)
    have hsigned := signed_of_runs hrun call hc _ _ hleader
    exact (ha.calls call hc).distinct (hcallee.trans (heq.symm.trans hsigned))
  cases input_origin hst hin with
  | own hi =>
    cases i with
    | requestVote | appendEntries | installSnapshot | voteReply | appendReply | snapshotReply =>
      cases hi
    | _ => exact id
  | request call hk hcallee heq =>
    have hc := List.mem_of_getElem? hk
    have hle := hterms.calls call hc
    have hnot := hself call hc hcallee
    subst heq
    cases hreq : call.request with
    | vote args =>
      rw [hreq] at hle
      exact not_lt.mpr hle
    | append args =>
      rw [hreq] at hle hnot
      intro hge
      have hsame : args.term = p.node.currentTerm := le_antisymm hle hge
      exact hnot args.leaderID (by rw [← hsame]; rfl)
    | snapshot args =>
      rw [hreq] at hle hnot
      intro hge
      have hsame : args.term = p.node.currentTerm := le_antisymm hle hge
      exact hnot args.leaderID (by rw [← hsame]; rfl)
  | reply k call reply hj _ _ hi _ =>
    have hle := hterms.replies k reply (List.mem_of_getElem? hj)
    have hat := Call.input_atMost hle hi p.node.currentTerm
    cases i with
    | voteReply | appendReply | snapshotReply => exact not_lt.mpr hat
    | requestVote | appendEntries | installSnapshot =>
      cases reply <;> rw [Call.input] at hi <;> split at hi <;> cases hi
    | _ => exact id

theorem System.Reign.step {inc : ℕ} (h : s.Reign n inc T)
    (hrun : Runs (System.step M c settings) Always System.init s)
    (hst : s.step M c settings e = some t) (he : ∀ m, m ≠ n → e ≠ .act m .electionTimeout) :
    t.Reign n inc T := by
  by_cases hboot : e = .boot n
  · subst hboot
    left
    rw [boot_incarnation hst]
    rcases h with hlt | ⟨heq, _⟩ <;> omega
  have hsame := (step_onward hst).2 n hboot
  rcases h with hlt | ⟨heq, hnow⟩
  · exact Or.inl (hlt.trans_eq hsame.symm)
  refine Or.inr ⟨hsame.trans heq, fun p hp => ?_⟩
  have hterms : ∀ q, (s.hosts n).proc = some q → t.TermsAtMost T := by
    intro q hq
    obtain ⟨hlead, _, hbound⟩ := hnow q hq
    refine hbound.step hrun hst fun m _ hm _ => ?_
    exfalso
    by_cases hmn : m = n
    · subst hmn
      rw [hm] at hst
      cases stepped_of_step hst with
      | act m i t out _ hx =>
        obtain ⟨q', o, hq', ho, _, _⟩ := run_cases hx
        cases hq.symm.trans hq'
        simp [Proc.handle, hlead] at ho
    · exact he m hmn hm
  rcases process_moved hst hboot hp with hp | ⟨q, i, o, out, hin, hq, ho, hx⟩
  · obtain ⟨hlead, hterm, _⟩ := hnow p hp
    exact ⟨hlead, hterm, hterms p hp⟩
  · obtain ⟨hlead, rfl, hbound⟩ := hnow q hq
    obtain ⟨hlead', hterm'⟩ := (Proc.handled ho hx).leads hlead
      (not_deposed hrun hq hlead hbound hst hin)
    exact ⟨hlead', hterm', hterms q hq⟩

end Cluster

section Timed

variable {M : StateMachine σ D} {c : ValidCluster} {settings : NodeId → Config}
  {s t : TimedSystem σ D} {n : NodeId} {p q : Proc σ D} {e : TimedEvent D}

def NoLater (T : ℕ) (s : TimedSystem σ D) : TimedEvent D → Prop
  | .raft (.act n .electionTimeout) _ => ∀ p ∈ (s.sys.hosts n).proc, p.node.currentTerm < T
  | _ => True

instance (T : ℕ) (s : TimedSystem σ D) (e : TimedEvent D) : Decidable (NoLater T s e) := by
  rw [NoLater.eq_def]
  split <;> infer_instance

theorem terms_of_runs {T : ℕ} (hrun : Runs (TimedSystem.step M c settings) (NoLater T) .init s) :
    s.sys.TermsAtMost T := by
  induction hrun with
  | refl =>
    constructor <;> simp [TimedSystem.init, System.init, Disk.empty]
  | tail hrun hno hst ih =>
    rcases (timed_sys hst).2 with heq | ⟨e', he', hstand⟩
    · rwa [heq]
    · refine ih.step (timed_runs hrun) he' fun n p hel hp => ?_
      obtain ⟨r, rfl⟩ := hstand n hel
      exact hno p hp

/-- Every other process that is started has had its election timer reset less than the shortest
timeout ago. -/
def Punctual (c : ValidCluster) (n : NodeId) (s : TimedSystem σ D) (_ : TimedEvent D) : Prop :=
  ∀ m ∈ c.peerIDs n, ∀ p ∈ (s.sys.hosts m).proc, p.node.started = true →
    s.now < (s.goroutines m).electionResetAt + p.node.cfg.electionTimeoutMin

instance (c : ValidCluster) (n : NodeId) (s : TimedSystem σ D) (e : TimedEvent D) :
    Decidable (Punctual c n s e) :=
  inferInstanceAs (Decidable (∀ m ∈ c.peerIDs n, ∀ p ∈ (s.sys.hosts m).proc, _ → _ < _))

theorem no_election {r : ℕ} {m : NodeId}
    (hrun : Runs (TimedSystem.step M c settings) Always .init s) (hpunctual : Punctual c n s e)
    (hm : m ≠ n) : s.step M c settings (.raft (.act m .electionTimeout) r) = none := by
  rw [← Option.not_isSome_iff_eq_none, Option.isSome_iff_exists]
  rintro ⟨v, hstand⟩
  obtain ⟨p, hp, hstarted, hdue⟩ := election_due hstand
  obtain ⟨_, hle, htimeout, _⟩ := timed_sound hrun hp
  have hmin := htimeout hstarted
  obtain ⟨a, ha⟩ := exists_account (timed_runs hrun)
  have hnow := hpunctual m (c.mem_peerIDs.mpr ⟨ha.member hp, hm⟩) p hp hstarted
  omega

/-- The leader of the latest term stays the leader, and its term the latest, until its process ends
or some other process that is started does not hear from it for the shortest election timeout. -/
theorem leader_stays (hrun : Runs (TimedSystem.step M c settings) Always .init s)
    (hp : (s.sys.hosts n).proc = some p) (hlead : p.node.state = .leader)
    (hterms : s.sys.TermsAtMost p.node.currentTerm)
    (hlater : Runs (TimedSystem.step M c settings) (Punctual c n) s t)
    (hinc : (t.sys.hosts n).incarnation = (s.sys.hosts n).incarnation)
    (hq : (t.sys.hosts n).proc = some q) :
    q.node.state = .leader ∧ q.node.currentTerm = p.node.currentTerm ∧
      t.sys.TermsAtMost p.node.currentTerm := by
  have hreign : Runs (TimedSystem.step M c settings) Always .init t ∧
      t.sys.Reign n (s.sys.hosts n).incarnation p.node.currentTerm := by
    refine hlater.invariant
      (P := fun u => Runs (TimedSystem.step M c settings) Always .init u ∧
        u.sys.Reign n (s.sys.hosts n).incarnation p.node.currentTerm)
      ⟨hrun, Or.inr ⟨rfl, fun p' hp' => ?_⟩⟩ ?_
    · cases hp.symm.trans hp'
      exact ⟨hlead, rfl, hterms⟩
    · rintro u e v ⟨hu, hr⟩ hpunctual hst
      refine ⟨hu.tail trivial hst, ?_⟩
      rcases (timed_sys hst).2 with heq | ⟨e', he', hstand⟩
      · rwa [heq]
      · refine hr.step (timed_runs hu) he' fun m hm hel => ?_
        subst hel
        obtain ⟨r, rfl⟩ := hstand m rfl
        rw [no_election hu hpunctual hm] at hst
        cases hst
  exact (hreign.2.resolve_left (by omega)).2 q hq

/-- The other members hear from the first for longer than an election timeout, and the third
restarts meanwhile. -/
def timedServes : List (TimedEvent (List LogEntry)) :=
  [.raft (.deliver 2) 0, .raft (.crash "n3") 0, .raft (.boot "n3") 0, .raft (.act "n3" .start) 0,
    .wait (50 * millisecond), .select "n1" 0 .tick, .round "n1" 0, .raft (.deliver 4) 0,
    .raft (.deliver 5) 0, .wait (140 * millisecond), .raft (.receive 2) 0]

theorem leader_stays_trio :
    ∃ s t p q, exec (TimedSystem.step recorder trio noSettings) (fun s e => decide (NoLater 1 s e))
        .init timedElects = some s ∧
      exec (TimedSystem.step recorder trio noSettings) (fun s e => decide (Punctual trio "n1" s e))
        s timedServes = some t ∧
      (s.sys.hosts "n1").proc = some p ∧ p.node.state = .leader ∧
      s.now + p.node.cfg.electionTimeoutMin < t.now ∧ (t.sys.hosts "n1").proc = some q ∧
      q.node.state = .leader ∧ q.node.currentTerm = p.node.currentTerm := by
  have hrun : ((exec (TimedSystem.step recorder trio noSettings)
      (fun s e => decide (NoLater 1 s e)) .init timedElects).any fun s =>
      (exec (TimedSystem.step recorder trio noSettings)
        (fun s e => decide (Punctual trio "n1" s e)) s timedServes).any fun t =>
        (t.sys.hosts "n1").proc.isSome && (s.sys.hosts "n1").proc.any fun p =>
          decide (p.node.state = .leader ∧ p.node.currentTerm = 1 ∧
            (t.sys.hosts "n1").incarnation = (s.sys.hosts "n1").incarnation ∧
            s.now + p.node.cfg.electionTimeoutMin < t.now)) = true := by decide +kernel
  obtain ⟨s, hs, hrest⟩ := (Option.any_eq_true _ _).mp hrun
  obtain ⟨t, ht, hrest⟩ := (Option.any_eq_true _ _).mp hrest
  obtain ⟨hq, hrest⟩ := Bool.and_eq_true_iff.mp hrest
  obtain ⟨q, hq⟩ := Option.isSome_iff_exists.mp hq
  obtain ⟨p, hp, hfacts⟩ := (Option.any_eq_true _ _).mp hrest
  obtain ⟨hlead, hterm, hinc, hnow⟩ := of_decide_eq_true hfacts
  have hterms : s.sys.TermsAtMost 1 :=
    terms_of_runs (runs_of_exec (fun _ _ => of_decide_eq_true) timedElects hs)
  obtain ⟨hlead', hterm', _⟩ := leader_stays
    (runs_of_exec (fun _ _ _ => trivial) timedElects hs) hp hlead (hterm ▸ hterms)
    (runs_of_exec (fun _ _ => of_decide_eq_true) timedServes ht) hinc hq
  exact ⟨s, t, p, q, hs, ht, hp, hlead, hnow, hq, hlead', hterm'⟩

end Timed

end Raft
