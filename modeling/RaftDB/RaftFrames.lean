import RaftDB.RaftCluster
import RaftDB.RaftHandlerSpecs

/-!
# What the sections leave alone

Frame lemmas for the locked sections, without any assumption on the node or the request: which
fields a section can change at all, which writes it can make, and which process an event of the
cluster moves.
-/
namespace Raft

open Storage ClusterConfig TransitionSystem
open RaftNode hiding id

variable {σ D ρ : Type}

theorem Outcome.after_ok {o : Outcome D ρ} {ws : List (StoreWrite D)} {x : RaftNode D × ρ}
    (h : (o.after ws).result = .ok x) : o.result = .ok x := h

namespace RaftNode

variable {rn rn' : RaftNode D}

theorem inTerm_cfg (rn : RaftNode D) (term : ℕ) : (rn.inTerm term).cfg = rn.cfg := by
  rw [inTerm]
  split <;> rfl

theorem truncateLogLocked_frame {start : ℕ} {u : Unit}
    (h : (rn.truncateLogLocked start).result = .ok (rn', u)) :
    ∃ log, rn' = { rn with log := log } := by
  rw [truncateLogLocked] at h
  split at h
  · cases h
    exact ⟨_, rfl⟩
  · cases h

theorem appendWalk_frame {args : AppendEntriesArgs} {es : List LogEntry} {u : Unit}
    (h : (rn.appendWalk args es).result = .ok (rn', u)) : ∃ log, rn' = { rn with log := log } := by
  induction es with
  | nil =>
    cases h
    exact ⟨rn.log, rfl⟩
  | cons e rest ih =>
    rw [appendWalk] at h
    split at h
    · exact ih h
    split at h
    · split at h
      · cases h
      split at h
      · exact ih h
      split at h
      · cases h
      dsimp only at h
      split at h
      · cases h
      · rename_i rn₁ _ hcut
        obtain ⟨log, rfl⟩ := truncateLogLocked_frame hcut
        cases h
        exact ⟨_, rfl⟩
    · cases h
      exact ⟨_, rfl⟩

theorem advanceFollowerCommit_frame (rn : RaftNode D) (args : AppendEntriesArgs) :
    ∃ n, rn.advanceFollowerCommit args = { rn with commitIndex := n } ∧
      (n = rn.commitIndex ∨ n ≤ args.leaderCommit) := by
  rcases rn.advanceFollowerCommit_cases args with ⟨_, heq⟩ | ⟨_, heq⟩
  · exact ⟨rn.commitIndex, heq, Or.inl rfl⟩
  · exact ⟨_, heq, Or.inr (Nat.min_le_left _ _)⟩

/-- Behind the term checks, a follower changes its log and its commit index only. -/
theorem acceptEntries_frame {args : AppendEntriesArgs} {reply : AppendEntriesReply}
    (h : (rn.acceptEntries args).result = .ok (rn', reply)) :
    ∃ log n, rn' = { rn with log := log, commitIndex := n } ∧
      (n = rn.commitIndex ∨ n ≤ args.leaderCommit) := by
  rw [acceptEntries] at h
  split at h
  · cases h
  · cases h
    exact ⟨rn.log, rn.commitIndex, rfl, Or.inl rfl⟩
  · dsimp only at h
    split at h
    · cases h
    · rename_i rn₁ _ hwalk
      obtain ⟨log, rfl⟩ := appendWalk_frame hwalk
      obtain ⟨n, hn, hle⟩ := advanceFollowerCommit_frame { rn with log := log } args
      cases h
      rw [hn]
      exact ⟨log, n, rfl, hle⟩

theorem acceptSnapshot_frame {args : InstallSnapshotArgs D} {reply : InstallSnapshotReply}
    (h : (rn.acceptSnapshot args).result = .ok (rn', reply)) :
    ∃ log n pending, rn' = { rn with
        log := log, commitIndex := n, pendingSnapshot := pending } ∧
      (n = rn.commitIndex ∨ n = args.lastIncludedIndex) := by
  rw [acceptSnapshot] at h
  dsimp only at h
  split at h
  · cases h
    exact ⟨rn.log, rn.commitIndex, rn.pendingSnapshot, rfl, Or.inl rfl⟩
  split at h
  · cases h
  · cases h
    exact ⟨_, _, _, rfl, Or.inr rfl⟩

theorem advanceCommitIndexLocked_frame (h : rn.advanceCommitIndexLocked = .ok rn') :
    ∃ n, rn' = { rn with commitIndex := n } := by
  rw [advanceCommitIndexLocked] at h
  split at h
  · cases h
    exact ⟨rn.commitIndex, rfl⟩
  split at h
  · cases h
  · cases h
    exact ⟨_, rfl⟩

theorem proposeAt_frame {index : ℕ} {command : List UInt8} {r : Option (ℕ × ℕ)}
    (h : (rn.proposeAt index command).result = .ok (rn', r)) :
    ∃ log n, rn' = { rn with log := log, commitIndex := n } ∧
      (n = rn.commitIndex ∨ rn.state = .leader ∧ log.sentinel = rn.log.sentinel) := by
  rw [proposeAt] at h
  split at h
  · cases h
    exact ⟨rn.log, rn.commitIndex, rfl, Or.inl rfl⟩
  rename_i hlead
  dsimp only at h
  split at h
  · cases h
  · rename_i rn₁ hadv
    cases h
    obtain ⟨n, rfl⟩ := advanceCommitIndexLocked_frame hadv
    exact ⟨_, n, rfl, Or.inr ⟨not_not.mp hlead, rfl⟩⟩

theorem compactLogLocked_frame {index term : ℕ} {u : Unit}
    (h : (rn.compactLogLocked index term).result = .ok (rn', u)) :
    ∃ log, rn' = { rn with log := log } := by
  rw [compactLogLocked] at h
  split at h
  · cases h
    exact ⟨rn.log, rfl⟩
  split at h
  · cases h
  · cases h
    exact ⟨_, rfl⟩

theorem handleRequestVote_frame {args : RequestVoteArgs} {reply : RequestVoteReply}
    (h : (rn.handleRequestVote args).result = .ok (rn', reply)) :
    rn' = rn ∨ ∃ vote, rn' = { rn.inTerm args.term with votedFor := vote } := by
  rw [handleRequestVote_eq] at h
  split at h
  · cases h
    exact Or.inl rfl
  · split at h <;> cases h <;> exact Or.inr ⟨_, rfl⟩

theorem handleAppendEntries_frame {args : AppendEntriesArgs}
    {reply : AppendEntriesReply} (h : (rn.handleAppendEntries args).result = .ok (rn', reply)) :
    rn' = rn ∨ rn.currentTerm ≤ args.term ∧ ∃ log n,
      rn' = { rn.followerOf args.term args.leaderID with log := log, commitIndex := n } ∧
      (n = rn.commitIndex ∨ n ≤ args.leaderCommit) := by
  rw [handleAppendEntries_eq] at h
  split at h
  · cases h
    exact Or.inl rfl
  · rename_i hterm
    push Not at hterm
    obtain ⟨log, n, rfl, hn⟩ := acceptEntries_frame (Outcome.after_ok h)
    rw [followerOf_commitIndex] at hn
    exact Or.inr ⟨hterm.2, log, n, rfl, hn⟩

theorem handleInstallSnapshot_frame {args : InstallSnapshotArgs D}
    {reply : InstallSnapshotReply}
    (h : (rn.handleInstallSnapshot args).result = .ok (rn', reply)) :
    rn' = rn ∨ rn.currentTerm ≤ args.term ∧ ∃ log n pending,
      rn' = { rn.followerOf args.term args.leaderID with
        log := log, commitIndex := n, pendingSnapshot := pending } ∧
      (n = rn.commitIndex ∨ n = args.lastIncludedIndex) := by
  rw [handleInstallSnapshot_eq] at h
  split at h
  · cases h
    exact Or.inl rfl
  · rename_i hterm
    push Not at hterm
    obtain ⟨log, n, pending, rfl, hn⟩ := acceptSnapshot_frame (Outcome.after_ok h)
    rw [followerOf_commitIndex] at hn
    exact Or.inr ⟨hterm.2, log, n, pending, rfl, hn⟩

end RaftNode

theorem Proc.locked_ok {p p' : Proc σ D} {o : Outcome D ρ} {out : ρ → Output D} {x : Output D}
    (h : (p.locked o out).result = .ok (p', x)) :
    ∃ rn' r, o.result = .ok (rn', r) ∧ p' = { p with node := rn' } ∧ x = out r := by
  rw [Proc.locked] at h
  split at h
  · cases h
  · rename_i rn' r hres
    cases h
    exact ⟨rn', r, hres, rfl, rfl⟩

theorem Proc.applier_spec {M : StateMachine σ D} {p p' : Proc σ D} {o : StepOutcome σ D}
    {out : Output D} (ho : p.applier M = some o) (h : o.result = .ok (p', out)) :
    (∃ log applied pending, p'.node = { p.node with
      log := log, lastApplied := applied, pendingSnapshot := pending }) ∧ out.Silent := by
  have hquiet : ∀ {q : Proc σ D} {x : Output D}, quietly q x = some o → p' = q ∧ out = x := by
    rintro q x ⟨⟩
    cases h
    exact ⟨rfl, rfl⟩
  have hfails : ∀ {e : Panic}, (fails e : Option (StepOutcome σ D)) ≠ some o := by
    rintro e ⟨⟩
    cases h
  have hsame : ∃ log applied pending, p.node = { p.node with
      log := log, lastApplied := applied, pendingSnapshot := pending } :=
    ⟨p.node.log, p.node.lastApplied, p.node.pendingSnapshot, rfl⟩
  rw [Proc.applier] at ho
  split at ho
  · rw [applierWake] at ho
    dsimp only at ho
    split at ho
    · cases ho
    split at ho
    · split at ho <;>
      · obtain ⟨rfl, rfl⟩ := hquiet ho
        exact ⟨⟨p.node.log, p.node.lastApplied, none, rfl⟩, trivial⟩
    split at ho
    · cases ho
    split at ho
    · exact absurd ho hfails
    · obtain ⟨rfl, rfl⟩ := hquiet ho
      exact ⟨hsame, trivial⟩
  · split at ho
    · exact absurd ho hfails
    · obtain ⟨rfl, rfl⟩ := hquiet ho
      exact ⟨hsame, trivial⟩
  · obtain ⟨rfl, rfl⟩ := hquiet ho
    exact ⟨⟨p.node.log, _, p.node.pendingSnapshot, rfl⟩, trivial⟩
  · obtain ⟨rfl, rfl⟩ := hquiet ho
    exact ⟨hsame, trivial⟩
  · dsimp only at ho
    split at ho
    · exact absurd ho hfails
    · obtain ⟨rfl, rfl⟩ := hquiet ho
      exact ⟨⟨p.node.log, _, p.node.pendingSnapshot, rfl⟩, trivial⟩
  · split at ho
    · exact absurd ho hfails
    · obtain ⟨rfl, rfl⟩ := hquiet ho
      exact ⟨hsame, trivial⟩
  · cases ho
    rw [saveCaptured] at h
    dsimp only at h
    split at h
    · cases h
      exact ⟨hsame, trivial⟩
    · obtain ⟨rn', u, hres, rfl, rfl⟩ := locked_ok h
      obtain ⟨log, rfl⟩ := compactLogLocked_frame hres
      exact ⟨⟨log, p.node.lastApplied, p.node.pendingSnapshot, rfl⟩, trivial⟩

theorem Proc.applier_frame {M : StateMachine σ D} {p p' : Proc σ D} {o : StepOutcome σ D}
    {out : Output D} (ho : p.applier M = some o) (h : o.result = .ok (p', out)) :
    ∃ log applied pending, p'.node = { p.node with
      log := log, lastApplied := applied, pendingSnapshot := pending } :=
  (Proc.applier_spec ho h).1

/-- A step that returned: the section that it ran, the process afterwards and its output. -/
inductive Proc.Handled (M : StateMachine σ D) (p : Proc σ D) :
    Input D → Proc σ D → Output D → Prop where
  | started : Handled M p .start { p with node := { p.node with started := true } } .quiet
  | resumed {data : D} {s : σ} : Handled M p .start
      { p with
        node := { p.node with started := true, initialSnapshotData := none }
        machine := s } (.restored data)
  | stopped : Handled M p .stop { p with node := p.node.stop } .quiet
  | stood {rn' : RaftNode D} {r : Option RequestVoteArgs} : p.node.state ≠ .leader →
      p.node.startElectionLocked.result = .ok (rn', r) →
      Handled M p .electionTimeout { p with node := rn' } (.ofElection r)
  | proposed {command : List UInt8} {rn' : RaftNode D} {r : Option (ℕ × ℕ)} :
      (p.node.propose command).result = .ok (rn', r) →
      Handled M p (.propose command) { p with node := rn' } (.proposed r)
  | replicated {term : ℕ} {msgs : List Outbound} : p.node.replicationRound term = .ok msgs →
      Handled M p (.replicate term) p (.round term msgs)
  | voted {args : RequestVoteArgs} {rn' : RaftNode D} {r : RequestVoteReply} :
      (p.node.handleRequestVote args).result = .ok (rn', r) →
      Handled M p (.requestVote args) { p with node := rn' } (.voteReply r)
  | appended {args : AppendEntriesArgs} {rn' : RaftNode D} {r : AppendEntriesReply} :
      (p.node.handleAppendEntries args).result = .ok (rn', r) →
      Handled M p (.appendEntries args) { p with node := rn' } (.appendReply r)
  | installed {args : InstallSnapshotArgs D} {rn' : RaftNode D} {r : InstallSnapshotReply} :
      (p.node.handleInstallSnapshot args).result = .ok (rn', r) →
      Handled M p (.installSnapshot args) { p with node := rn' } (.snapshotReply r)
  | voteReply {term : ℕ} {reply : RequestVoteReply} {rn' : RaftNode D} {u : Unit} :
      (p.node.handleRequestVoteReply term reply).result = .ok (rn', u) →
      Handled M p (.voteReply term reply) { p with node := rn' } .quiet
  | appendReply {peer : NodeId} {term : ℕ} {args : AppendEntriesArgs}
      {reply : AppendEntriesReply} {rn' : RaftNode D} {u : Unit} :
      (p.node.handleAppendEntriesReply peer term args reply).result = .ok (rn', u) →
      Handled M p (.appendReply peer term args reply) { p with node := rn' } .quiet
  | snapshotReply {peer : NodeId} {term : ℕ} {args : InstallSnapshotArgs D}
      {reply : InstallSnapshotReply} {rn' : RaftNode D} {u : Unit} :
      (p.node.handleInstallSnapshotReply peer term args reply).result = .ok (rn', u) →
      Handled M p (.snapshotReply peer term args reply) { p with node := rn' } .quiet
  | applier {o : StepOutcome σ D} {p' : Proc σ D} {out : Output D} : p.applier M = some o →
      o.result = .ok (p', out) → Handled M p .applier p' out

theorem Proc.handled {M : StateMachine σ D} {p p' : Proc σ D} {i : Input D}
    {o : StepOutcome σ D} {out : Output D} (ho : p.handle M i = some o)
    (hx : o.result = .ok (p', out)) : p.Handled M i p' out := by
  cases i with
  | start =>
    rw [handle, start] at ho
    split at ho
    · cases ho
    split at ho
    · cases ho
      cases hx
      exact .started
    split at ho
    · cases ho
    · cases ho
      cases hx
      exact .resumed
  | stop =>
    cases ho
    cases hx
    exact .stopped
  | electionTimeout =>
    rw [handle] at ho
    split at ho
    · cases ho
    rename_i hidle
    cases ho
    obtain ⟨rn', r, hres, rfl, rfl⟩ := locked_ok hx
    simp only [Bool.or_eq_true, decide_eq_true_eq, not_or] at hidle
    exact .stood hidle.2 hres
  | propose command =>
    cases ho
    obtain ⟨rn', r, hres, rfl, rfl⟩ := locked_ok hx
    exact .proposed hres
  | replicate term =>
    rw [handle] at ho
    split at ho
    · cases ho
      cases hx
    · rename_i msgs hround
      cases ho
      cases hx
      exact .replicated hround
  | requestVote args =>
    cases ho
    obtain ⟨rn', r, hres, rfl, rfl⟩ := locked_ok hx
    exact .voted hres
  | appendEntries args =>
    cases ho
    obtain ⟨rn', r, hres, rfl, rfl⟩ := locked_ok hx
    exact .appended hres
  | installSnapshot args =>
    cases ho
    obtain ⟨rn', r, hres, rfl, rfl⟩ := locked_ok hx
    exact .installed hres
  | voteReply term reply =>
    cases ho
    obtain ⟨rn', r, hres, rfl, rfl⟩ := locked_ok hx
    exact .voteReply hres
  | appendReply peer term args reply =>
    cases ho
    obtain ⟨rn', r, hres, rfl, rfl⟩ := locked_ok hx
    exact .appendReply hres
  | snapshotReply peer term args reply =>
    cases ho
    obtain ⟨rn', r, hres, rfl, rfl⟩ := locked_ok hx
    exact .snapshotReply hres
  | applier => exact .applier ho hx

/-- Only the applier applies, and only it and `Start` restore. -/
theorem Proc.Handled.output {M : StateMachine σ D} {p p' : Proc σ D} {i : Input D}
    {out : Output D} (h : p.Handled M i p' out) :
    i = .applier ∨ (∀ e, out ≠ .applied e) ∧ (i = .start ∨ ∀ data, out ≠ .restored data) := by
  cases h with
  | applier => exact Or.inl rfl
  | started | resumed => exact Or.inr ⟨by rintro _ ⟨⟩, Or.inl rfl⟩
  | @stood _ r =>
    cases r <;> exact Or.inr ⟨by rintro _ ⟨⟩, Or.inr (by rintro _ ⟨⟩)⟩
  | _ => exact Or.inr ⟨by rintro _ ⟨⟩, Or.inr (by rintro _ ⟨⟩)⟩

def System.inputOf (s : System σ D) : Event D → Option (NodeId × Input D)
  | .act n i => some (n, i)
  | .deliver k => s.calls[k]?.map fun call => (call.callee, call.request.input)
  | .receive j => s.replies[j]?.bind fun x => s.calls[x.1]?.bind fun call =>
      (call.input x.2).map fun i => (call.caller, i)
  | .boot _ | .crash _ | .loadSnapshot _ => none

section Hosts

variable {M : StateMachine σ D} {c : ValidCluster} {settings : NodeId → Config}
  {s t : System σ D} {n m : NodeId} {e : Event D} {i : Input D} {p' : Proc σ D}

theorem inputOf_deliver {k : ℕ} {call : Call D} (hk : s.calls[k]? = some call) :
    s.inputOf (.deliver k) = some (call.callee, call.request.input) := by
  rw [System.inputOf, hk]
  rfl

theorem inputOf_receive {j k : ℕ} {reply : Reply} {call : Call D}
    (hj : s.replies[j]? = some (k, reply)) (hk : s.calls[k]? = some call)
    (hi : call.input reply = some i) : s.inputOf (.receive j) = some (call.caller, i) := by
  rw [System.inputOf, hj, Option.bind_some, hk, Option.bind_some, hi]
  rfl

inductive HostsStep (M : StateMachine σ D) (c : ValidCluster) (settings : NodeId → Config)
    (s t : System σ D) (e : Event D) : Prop where
  | input (n : NodeId) (i : Input D) (p : Proc σ D) (o : StepOutcome σ D) :
      s.inputOf e = some (n, i) → (s.hosts n).proc = some p → p.handle M i = some o →
      t.hosts = (s.settle n p o).hosts → HostsStep M c settings s t e
  | boot (n : NodeId) (rn : RaftNode D) : s.inputOf e = none → (s.hosts n).proc = none →
      newNode (nodeConfig c settings n) (s.hosts n).disk = .ok rn →
      t.hosts = Function.update s.hosts n
        ⟨(s.hosts n).disk, (s.hosts n).incarnation + 1, some (Proc.boot M rn)⟩ →
      HostsStep M c settings s t e
  | crash (n : NodeId) : s.inputOf e = none →
      t.hosts = Function.update s.hosts n ⟨(s.hosts n).disk, (s.hosts n).incarnation, none⟩ →
      HostsStep M c settings s t e
  | load : s.inputOf e = none → t.hosts = s.hosts → HostsStep M c settings s t e

theorem HostsStep.of_run {out : Option (Output D)} {u : System σ D}
    (hx : s.run M n i = some (u, out)) (hin : s.inputOf e = some (n, i))
    (hu : t.hosts = u.hosts) : HostsStep M c settings s t e := by
  obtain ⟨p, o, hp, ho, rfl, -⟩ := run_cases hx
  exact .input n i p o hin hp ho hu

theorem hosts_step (hst : s.step M c settings e = some t) : HostsStep M c settings s t e := by
  cases stepped_of_step hst with
  | boot n rn _ hnone hrn => exact .boot n rn rfl hnone hrn rfl
  | crash n p _ => exact .crash n rfl rfl
  | act n i t out _ hx => exact .of_run hx rfl rfl
  | unsaved | loaded => exact .load rfl rfl
  | ignored k call t out hk hx _ | answered k call u out reply hk hx _ =>
    exact .of_run hx (inputOf_deliver hk) rfl
  | received j k reply call i u out hj hk _ _ hi hx => exact .of_run hx (inputOf_receive hj hk hi) rfl

/-- Where the input of an event comes from. -/
inductive Origin (s : System σ D) (n : NodeId) (i : Input D) : Event D → Prop where
  | own : i.internal = true → Origin s n i (.act n i)
  | request {k : ℕ} (call : Call D) : s.calls[k]? = some call → call.callee = n →
      i = call.request.input → Origin s n i (.deliver k)
  | reply {j : ℕ} (k : ℕ) (call : Call D) (reply : Reply) : s.replies[j]? = some (k, reply) →
      s.calls[k]? = some call → call.caller = n → call.input reply = some i →
      (s.hosts n).incarnation = call.incarnation → Origin s n i (.receive j)

theorem input_origin (hst : s.step M c settings e = some t) (hin : s.inputOf e = some (n, i)) :
    Origin s n i e := by
  cases stepped_of_step hst with
  | boot | crash | unsaved | loaded => cases hin
  | act n i t out hi _ =>
    cases hin
    exact .own hi
  | ignored k call t out hk _ _ | answered k call u out reply hk _ _ =>
    rw [inputOf_deliver hk] at hin
    cases hin
    exact .request call hk rfl rfl
  | received j k reply call i u out hj hk _ hinc hi _ =>
    rw [inputOf_receive hj hk hi] at hin
    cases hin
    exact .reply k call reply hj hk rfl hi hinc

theorem Call.input_snapshotReply {call : Call D} {reply : Reply} {peer : NodeId} {term : ℕ}
    {args : InstallSnapshotArgs D} {answer : InstallSnapshotReply}
    (h : call.input reply = some (.snapshotReply peer term args answer)) :
    reply = .snapshot answer ∧ call.request = .snapshot args ∧ call.callee = peer ∧
      args.term = term := by
  cases reply with
  | snapshot reply =>
    rw [Call.input] at h
    split at h
    · rename_i hreq
      cases h
      exact ⟨rfl, hreq, rfl, rfl⟩
    · cases h
  | vote reply | append reply =>
    rw [Call.input] at h
    split at h <;> cases h

theorem Call.input_appendReply {call : Call D} {reply : Reply} {peer : NodeId} {term : ℕ}
    {args : AppendEntriesArgs} {answer : AppendEntriesReply}
    (h : call.input reply = some (.appendReply peer term args answer)) :
    reply = .append answer ∧ call.request = .append args ∧ call.callee = peer ∧
      args.term = term := by
  cases reply with
  | append reply =>
    rw [Call.input] at h
    split at h
    · rename_i hreq
      cases h
      exact ⟨rfl, hreq, rfl, rfl⟩
    · cases h
  | vote reply | snapshot reply =>
    rw [Call.input] at h
    split at h <;> cases h

theorem Request.input_ne_appendReply (request : Request D) {peer : NodeId} {term : ℕ}
    {args : AppendEntriesArgs} {answer : AppendEntriesReply} :
    request.input ≠ .appendReply peer term args answer := by
  cases request <;> rintro ⟨⟩

theorem Request.input_ne_snapshotReply (request : Request D) {peer : NodeId} {term : ℕ}
    {args : InstallSnapshotArgs D} {answer : InstallSnapshotReply} :
    request.input ≠ .snapshotReply peer term args answer := by
  cases request <;> rintro ⟨⟩

theorem settle_host {p : Proc σ D} {o : StepOutcome σ D} {out : Output D}
    (h : o.result = .ok (p', out)) : (s.settle n p o).hosts n =
      ⟨(s.hosts n).disk.writeAll o.writes, (s.hosts n).incarnation, some p'⟩ := by
  rw [System.settle, h]
  exact Function.update_self _ _ _

theorem settle_host_of_ne {p : Proc σ D} {o : StepOutcome σ D} (h : m ≠ n) :
    (s.settle n p o).hosts m = s.hosts m := by
  rw [System.settle]
  split <;> exact Function.update_of_ne h _ _

theorem settle_host_error {p : Proc σ D} {o : StepOutcome σ D} {err : Panic}
    (h : o.result = .error err) : (s.settle n p o).hosts n =
      ⟨(s.hosts n).disk.writeAll o.writes, (s.hosts n).incarnation, none⟩ := by
  rw [System.settle, h]
  exact Function.update_self _ _ _

inductive ProcStep (M : StateMachine σ D) (c : ValidCluster) (settings : NodeId → Config)
    (s t : System σ D) (n : NodeId) (e : Event D) (p' : Proc σ D) : Prop where
  | same : t.hosts n = s.hosts n → ProcStep M c settings s t n e p'
  | boot (rn : RaftNode D) :
      newNode (nodeConfig c settings n) (s.hosts n).disk = .ok rn → p' = Proc.boot M rn →
      ProcStep M c settings s t n e p'
  | moved (p : Proc σ D) (i : Input D) (o : StepOutcome σ D) (out : Output D) :
      s.inputOf e = some (n, i) → (s.hosts n).proc = some p → p.handle M i = some o →
      o.result = .ok (p', out) → ProcStep M c settings s t n e p'

theorem proc_step (hst : s.step M c settings e = some t) (hp' : (t.hosts n).proc = some p') :
    ProcStep M c settings s t n e p' := by
  cases hosts_step hst with
  | input m i p o hin hp ho hu =>
    by_cases hn : n = m
    · subst hn
      rw [hu] at hp'
      cases hres : o.result with
      | error err =>
        rw [settle_host_error hres] at hp'
        cases hp'
      | ok x =>
        rw [settle_host hres] at hp'
        cases hp'
        exact .moved p i o _ hin hp ho hres
    · refine .same ?_
      rw [hu, settle_host_of_ne hn]
  | boot m rn _ _ hrn hu =>
    by_cases hn : n = m
    · subst hn
      rw [hu, Function.update_self] at hp'
      cases hp'
      exact .boot rn hrn rfl
    · refine .same ?_
      rw [hu, Function.update_of_ne hn]
  | crash m _ hu =>
    by_cases hn : n = m
    · subst hn
      rw [hu, Function.update_self] at hp'
      cases hp'
    · refine .same ?_
      rw [hu, Function.update_of_ne hn]
  | load _ hu =>
    refine .same ?_
    rw [hu]

theorem settle_replies (s : System σ D) (n : NodeId) (p : Proc σ D) (o : StepOutcome σ D) :
    (s.settle n p o).replies = s.replies := by
  rw [System.settle]
  split <;> rfl

theorem run_calls {out : Option (Output D)} (h : s.run M n i = some (t, out)) :
    s.calls <+: t.calls ∧ t.replies = s.replies := by
  obtain ⟨p, o, _, _, rfl, _⟩ := run_cases h
  exact ⟨settle_calls s n p o, settle_replies s n p o⟩

theorem step_calls (hst : s.step M c settings e = some t) : s.calls <+: t.calls := by
  cases stepped_of_step hst with
  | boot | crash | unsaved => exact List.prefix_refl _
  | loaded => exact List.prefix_append _ _
  | act n i t out _ hx | ignored k call t out _ hx | answered k call u out reply _ hx
  | received j k reply call i u out _ _ _ _ _ hx => exact (run_calls hx).1

inductive ReplyStep (M : StateMachine σ D) (s t : System σ D) (e : Event D) (k : ℕ)
    (reply : Reply) : Prop where
  | old : (k, reply) ∈ s.replies → ReplyStep M s t e k reply
  | answer (call : Call D) (p : Proc σ D) (o : StepOutcome σ D) (p' : Proc σ D)
      (out : Output D) : e = .deliver k → s.calls[k]? = some call →
      (s.hosts call.callee).proc = some p → p.handle M call.request.input = some o →
      o.result = .ok (p', out) → out.reply = some reply →
      t.hosts = (s.settle call.callee p o).hosts → ReplyStep M s t e k reply

theorem reply_step (hst : s.step M c settings e = some t) {k : ℕ} {reply : Reply}
    (hr : (k, reply) ∈ t.replies) : ReplyStep M s t e k reply := by
  cases stepped_of_step hst with
  | boot | crash | unsaved | loaded => exact .old hr
  | act n i t out _ hx | ignored k call t out _ hx
  | received j k reply call i u out _ _ _ _ _ hx => exact .old ((run_calls hx).2 ▸ hr)
  | answered k' call u out answer hk hx hrep =>
    have hreplies := (run_calls hx).2
    obtain ⟨p, o, hp, ho, rfl, hout⟩ := run_cases hx
    rcases List.mem_append.mp hr with hr | hr
    · exact .old (hreplies ▸ hr)
    · cases List.mem_singleton.mp hr
      rw [StepOutcome.output] at hout
      split at hout
      · cases hout
      · rename_i p' out' hres
        cases hout
        exact .answer call p o p' out rfl hk hp ho hres hrep rfl

inductive Traced (s : System σ D) (n : NodeId) (o : StepOutcome σ D) : Observation D → Prop where
  | old {ob : Observation D} : ob ∈ s.trace → Traced s n o ob
  | panicked (err : Panic) : Traced s n o (.panicked n err)
  | applied (p' : Proc σ D) (x : LogEntry) : o.result = .ok (p', .applied x) →
      Traced s n o (.applied n (s.hosts n).incarnation x)
  | restored (data : D) : Traced s n o (.restored n (s.hosts n).incarnation data)
  | elected (p' : Proc σ D) (out : Output D) (snap : Option (Snapshot D)) :
      o.result = .ok (p', out) → Traced s n o (.elected n p'.node.currentTerm snap p'.node.log)
  | committed (p' : Proc σ D) (out : Output D) (snap : Option (Snapshot D)) :
      o.result = .ok (p', out) → Traced s n o
        (.committed n p'.node.currentTerm snap p'.node.log p'.node.commitIndex)

theorem mem_observeLeader {disk : Disk D} {rn rn' : RaftNode D} {ob : Observation D}
    (h : ob ∈ observeLeader n disk rn rn') :
    ob = .elected n rn'.currentTerm disk.snapshot rn'.log ∨
      ob = .committed n rn'.currentTerm disk.snapshot rn'.log rn'.commitIndex := by
  rw [observeLeader] at h
  split at h
  · cases h
  rcases List.mem_append.mp h with h | h
  · split at h
    · exact Or.inl (List.mem_singleton.mp h)
    · cases h
  · split at h
    · exact Or.inr (List.mem_singleton.mp h)
    · cases h

theorem traced_of_settle {p : Proc σ D} {o : StepOutcome σ D} {ob : Observation D}
    (h : ob ∈ (s.settle n p o).trace) : Traced s n o ob := by
  rw [System.settle] at h
  split at h
  · rcases List.mem_append.mp h with h | h
    · exact .old h
    · cases List.mem_singleton.mp h
      exact .panicked _
  · rename_i p' out hres
    rcases List.mem_append.mp h with h | h
    · exact .old h
    rcases List.mem_append.mp h with h | h
    · cases out with
      | applied x =>
        cases List.mem_singleton.mp h
        exact .applied p' x hres
      | restored data =>
        cases List.mem_singleton.mp h
        exact .restored data
      | _ => cases h
    · rcases mem_observeLeader h with rfl | rfl
      · exact .elected p' out _ hres
      · exact .committed p' out _ hres

theorem run_trace {out : Option (Output D)} (h : s.run M n i = some (t, out)) {inc : ℕ}
    {x : LogEntry} (hob : Observation.applied m inc x ∈ t.trace) :
    Observation.applied m inc x ∈ s.trace ∨ m = n ∧ i = .applier ∧ out = some (.applied x) := by
  obtain ⟨p, o, _, ho, rfl, rfl⟩ := run_cases h
  cases traced_of_settle hob with
  | old hold => exact Or.inl hold
  | applied p' x hres =>
    refine Or.inr ⟨rfl, ?_, by rw [StepOutcome.output, hres]⟩
    exact (Proc.handled ho hres).output.resolve_right fun hne => hne.1 _ rfl

theorem step_applied (hst : s.step M c settings e = some t) {inc : ℕ} {x : LogEntry}
    (hob : Observation.applied n inc x ∈ t.trace) :
    Observation.applied n inc x ∈ s.trace ∨ e = .act n .applier := by
  have hdeliver : ∀ {request : Request D}, request.input ≠ .applier := by
    rintro (_ | _ | _) ⟨⟩
  have hreceive : ∀ {call : Call D} {reply}, call.input reply ≠ some .applier := by
    intro call reply hi
    cases reply <;> rw [Call.input] at hi <;> split at hi <;> cases hi
  cases stepped_of_step hst with
  | boot | crash | unsaved | loaded => exact Or.inl hob
  | act m i t out _ hx =>
    rcases run_trace hx hob with hold | ⟨rfl, rfl, _⟩
    · exact Or.inl hold
    · exact Or.inr rfl
  | ignored k call t out _ hx | answered k call u out reply _ hx =>
    rcases run_trace hx hob with hold | ⟨_, hi, _⟩
    · exact Or.inl hold
    · exact absurd hi hdeliver
  | received j k reply call i u out _ _ _ _ hi hx =>
    rcases run_trace hx hob with hold | ⟨_, rfl, _⟩
    · exact Or.inl hold
    · exact absurd hi hreceive

theorem newNode_leaderless {cfg : Config} {disk : Disk D} {rn : RaftNode D}
    (h : newNode cfg disk = .ok rn) : rn.leaderID = None ∧ rn.state = .follower := by
  obtain ⟨_, rfl⟩ := newNode_eq h
  exact ⟨rfl, rfl⟩

theorem newNode_follower {cfg : Config} {disk : Disk D} {rn : RaftNode D}
    (h : newNode cfg disk = .ok rn) : rn.state = .follower :=
  (newNode_leaderless h).2

end Hosts

end Raft
