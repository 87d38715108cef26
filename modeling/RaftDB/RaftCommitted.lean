import RaftDB.RaftDelivery

/-!
# What has been committed

An entry is committed once a leader has advanced its commit index over it, which the trace
records together with the leader's log. Every index that a node, a file or a message calls
committed goes back to such events: a follower only repeats what a request carried, and a
snapshot reaches no further than what was applied. And whatever a leader has committed is
chosen in the abstract protocol, so there is one committed entry for an index.
-/
namespace Raft

open Storage ClusterConfig TransitionSystem ReplicatedLog LogPrefix
open RaftNode hiding id

variable {σ D : Type}

section Commits

variable {rn rn' : RaftNode D} {i : Input D}

/-- How a step comes to its commit index: it keeps it, it leads and counted, or it was told
by a request. -/
inductive CommitStep (rn rn' : RaftNode D) : Input D → Prop where
  | kept {i : Input D} : rn'.commitIndex = rn.commitIndex → CommitStep rn rn' i
  | counted {i : Input D} : rn'.state = .leader → rn'.log.sentinel = rn.log.sentinel →
      CommitStep rn rn' i
  | told {args : AppendEntriesArgs} : rn'.commitIndex ≤ args.leaderCommit →
      CommitStep rn rn' (.appendEntries args)
  | installed {args : InstallSnapshotArgs D} : rn'.commitIndex = args.lastIncludedIndex →
      CommitStep rn rn' (.installSnapshot args)

theorem handleRequestVote_commit {args : RequestVoteArgs} {reply : RequestVoteReply}
    (h : (rn.handleRequestVote args).result = .ok (rn', reply)) :
    rn'.commitIndex = rn.commitIndex := by
  rcases handleRequestVote_frame h with rfl | ⟨vote, rfl⟩
  · rfl
  · exact inTerm_commitIndex _ _

theorem handleAppendEntries_commit {args : AppendEntriesArgs} {reply : AppendEntriesReply}
    (h : (rn.handleAppendEntries args).result = .ok (rn', reply)) :
    CommitStep rn rn' (.appendEntries args) := by
  rcases handleAppendEntries_frame h with rfl | ⟨_, log, n, rfl, hn | hn⟩
  · exact .kept rfl
  · exact .kept hn
  · exact .told hn

theorem handleInstallSnapshot_commit {args : InstallSnapshotArgs D}
    {reply : InstallSnapshotReply}
    (h : (rn.handleInstallSnapshot args).result = .ok (rn', reply)) :
    CommitStep rn rn' (.installSnapshot args) := by
  rcases handleInstallSnapshot_frame h with rfl | ⟨_, log, n, pending, rfl, hn | hn⟩
  · exact .kept rfl
  · exact .kept hn
  · exact .installed hn

theorem handleRequestVoteReply_commit {term : ℕ} {reply : RequestVoteReply} {u : Unit}
    (h : (rn.handleRequestVoteReply term reply).result = .ok (rn', u)) :
    rn'.commitIndex = rn.commitIndex := by
  have hcases := rn.handleRequestVoteReply_cases term reply
  generalize rn.handleRequestVoteReply term reply = o at h hcases
  cases hcases with
  | deposed =>
    cases h
    exact becomeFollowerLocked_commit rn _
  | _ =>
    cases h
    rfl

theorem handleAppendEntriesReply_commit {peer : NodeId} {term : ℕ} {args : AppendEntriesArgs}
    {reply : AppendEntriesReply} {u : Unit}
    (h : (rn.handleAppendEntriesReply peer term args reply).result = .ok (rn', u)) :
    CommitStep rn rn' i := by
  have hcases := rn.handleAppendEntriesReply_cases peer term args reply
  generalize rn.handleAppendEntriesReply peer term args reply = o at h hcases
  cases hcases with
  | ignored | rejected =>
    cases h
    exact .kept rfl
  | deposed =>
    cases h
    exact .kept (becomeFollowerLocked_commit rn _)
  | confirmed htakes _ _ hadv =>
    cases h
    obtain ⟨n, rfl⟩ := advanceCommitIndexLocked_frame hadv
    exact .counted htakes.leads rfl
  | panicked => cases h

theorem handleInstallSnapshotReply_commit {peer : NodeId} {term : ℕ}
    {args : InstallSnapshotArgs D} {reply : InstallSnapshotReply} {u : Unit}
    (h : (rn.handleInstallSnapshotReply peer term args reply).result = .ok (rn', u)) :
    rn'.commitIndex = rn.commitIndex := by
  have hcases := rn.handleInstallSnapshotReply_cases peer term args reply
  generalize rn.handleInstallSnapshotReply peer term args reply = o at h hcases
  cases hcases with
  | deposed =>
    cases h
    exact becomeFollowerLocked_commit rn _
  | _ =>
    cases h
    rfl

theorem Proc.Handled.commit {M : StateMachine σ D} {p p' : Proc σ D} {out : Output D}
    (h : p.Handled M i p' out) : CommitStep p.node p'.node i := by
  cases h with
  | started | resumed | stopped | replicated => exact .kept rfl
  | stood _ hres =>
    rw [startElectionLocked, startElectionIn] at hres
    dsimp only at hres
    split at hres <;> cases hres <;> exact .kept rfl
  | proposed hres =>
    obtain ⟨log, n, rfl, hn | ⟨hlead, hlog⟩⟩ := proposeAt_frame hres
    · exact .kept hn
    · exact .counted hlead hlog
  | voted hres => exact .kept (handleRequestVote_commit hres)
  | appended hres => exact handleAppendEntries_commit hres
  | installed hres => exact handleInstallSnapshot_commit hres
  | voteReply hres => exact .kept (handleRequestVoteReply_commit hres)
  | appendReply hres => exact handleAppendEntriesReply_commit hres
  | snapshotReply hres => exact .kept (handleInstallSnapshotReply_commit hres)
  | applier ho hx =>
    obtain ⟨log, applied, pending, heq⟩ := applier_frame ho hx
    rw [heq]
    exact .kept rfl

end Commits

section Rounds

variable {M : StateMachine σ D} {p p' : Proc σ D} {i : Input D} {o : StepOutcome σ D}
  {out : Output D}

inductive Launched (rn : RaftNode D) (call : Call D) : Prop where
  | vote (args : RequestVoteArgs) : call.request = .vote args → Launched rn call
  | append (peer target : NodeId) (args : AppendEntriesArgs) : call.request = .append args →
      rn.state = .leader → rn.outboundTo rn.currentTerm peer = some (.append target args) →
      Launched rn call

theorem Proc.Handled.calls (h : p.Handled M i p' out) (hw : p.node.Wf)
    (ha : ApplierOk p.node p.phase) {n : NodeId} {inc : ℕ} {call : Call D}
    (hc : call ∈ out.calls n inc p.node.peers) : Launched p.node call := by
  cases h with
  | @stood _ r =>
    cases r with
    | none => cases hc
    | some args =>
      obtain ⟨peer, _, rfl⟩ := List.mem_map.mp hc
      exact .vote args rfl
  | replicated hround =>
    obtain ⟨msg, hm, hmsg⟩ := List.mem_filterMap.mp hc
    cases msg with
    | snapshot peer => cases hmsg
    | append target args =>
      cases hmsg
      obtain ⟨hlead, rfl, peer, _, hout⟩ := replicationRound_mem hround hm
      exact .append peer target args rfl hlead hout
  | applier ho hx => cases p.applier_step hw ha ho <;> cases hx <;> cases hc
  | _ => cases hc

end Rounds

section Evidence

/-- A leader has advanced its commit index over the entry. -/
def System.Committed (s : System σ D) (e : LogEntry) : Prop :=
  ∃ n term snapshot log commitIndex,
    Observation.committed n term snapshot log commitIndex ∈ s.trace ∧ e ∈ log.entries ∧
      e.index ≤ commitIndex

def System.CommittedTo (s : System σ D) (i : ℕ) : Prop :=
  ∀ j, 0 < j → j ≤ i → ∃ e, s.Committed e ∧ e.index = j

/-- What nodes, files and requests call committed is, and a parked snapshot is on disk. -/
structure Evidenced (s : System σ D) : Prop where
  nodes : ∀ {n p}, (s.hosts n).proc = some p → s.CommittedTo p.node.commitIndex
  files : ∀ {n snap}, (s.hosts n).disk.snapshot = some snap →
    0 < snap.lastIncludedIndex ∧ s.CommittedTo snap.lastIncludedIndex
  parked : ∀ {n p snap}, (s.hosts n).proc = some p → p.node.pendingSnapshot = some snap →
    (s.hosts n).disk.snapshot = some snap
  appends : ∀ call ∈ s.calls, ∀ args, call.request = .append args →
    s.CommittedTo args.leaderCommit
  installs : ∀ call ∈ s.calls, ∀ args, call.request = .snapshot args →
    0 < args.lastIncludedIndex ∧ s.CommittedTo args.lastIncludedIndex

def System.Vouches (s : System σ D) : Input D → Prop
  | .appendEntries args => s.CommittedTo args.leaderCommit
  | .installSnapshot args =>
    0 < args.lastIncludedIndex ∧ s.CommittedTo args.lastIncludedIndex
  | _ => True

variable {M : StateMachine σ D} {c : ValidCluster} {settings : NodeId → Config}
  {s t : System σ D} {n : NodeId} {p p' : Proc σ D} {i : Input D} {o : StepOutcome σ D}
  {out : Output D} {cfg : Config} {disk : Disk D}

theorem System.CommittedTo.mono {j k : ℕ} (h : s.CommittedTo k) (hjk : j ≤ k)
    (htr : s.trace <+: t.trace) : t.CommittedTo j := by
  intro x hx hxj
  obtain ⟨e, ⟨m, T, snap, log, ci, hob, he⟩, hindex⟩ := h x hx (hxj.trans hjk)
  exact ⟨e, ⟨m, T, snap, log, ci, htr.subset hob, he⟩, hindex⟩

theorem Evidenced.snapshots (h : Evidenced s) (hp : (s.hosts n).proc = some p)
    (hlive : Live cfg (s.hosts n).disk p) (hi : i.Numbered) (hv : s.Vouches i)
    (ho : p.handle M i = some o) :
    (∀ snap, ((s.hosts n).disk.writeAll o.writes).snapshot = some snap →
      0 < snap.lastIncludedIndex ∧ s.CommittedTo snap.lastIncludedIndex) ∧
    ∀ x, o.result = .ok x → ∀ snap, x.1.node.pendingSnapshot = some snap →
      ((s.hosts n).disk.writeAll o.writes).snapshot = some snap := by
  rcases p.handle_cases hlive.wf hi ho with ⟨rn', hm, hr⟩ | ⟨q, out, rfl, hf⟩ | ⟨_, happ⟩
  · rcases hm.snapshots (s.hosts n).disk with ⟨hpend, hdisk⟩ | ⟨new, ⟨args, rfl, _, rfl⟩, hpend, hdisk⟩
    · rw [hdisk]
      refine ⟨fun snap => h.files, fun x hx snap hs => ?_⟩
      rw [hr x hx, hpend] at hs
      exact h.parked hp hs
    · rw [hdisk]
      refine ⟨?_, fun x hx snap hs => ?_⟩
      · rintro _ ⟨⟩
        exact hv
      · rw [hr x hx, hpend] at hs
        exact hs
  · refine ⟨fun snap => h.files, ?_⟩
    rintro _ ⟨⟩ snap hs
    obtain ⟨_, _, _, _, hnode⟩ := hf.same
    rw [hnode] at hs
    exact h.parked hp hs
  · cases p.applier_step hlive.wf hlive.applier happ with
    | park snap _ _ _ =>
      refine ⟨fun snap => h.files, ?_⟩
      rintro _ ⟨⟩ _ ⟨⟩
    | save i t data hph hb =>
      have ha := hlive.applier
      rw [hph] at ha
      obtain ⟨hi, _⟩ := ha.capture rfl
      refine ⟨?_, ?_⟩
      · rintro _ ⟨⟩
        refine ⟨(Nat.zero_le _).trans_lt hb, ?_⟩
        exact (h.nodes hp).mono ha.reach_le (List.prefix_refl _)
      · rintro _ ⟨⟩ snap hs
        have hlt : i < p.node.log.base := (ha.parked hs).2
        omega
    | panic e _ =>
      refine ⟨fun snap => h.files, ?_⟩
      rintro _ ⟨⟩
    | _ =>
      refine ⟨fun snap => h.files, ?_⟩
      rintro _ ⟨⟩ snap hs
      exact h.parked hp hs

theorem Evidenced.commits (h : Evidenced s) (hp : (s.hosts n).proc = some p)
    (hlive : Live cfg (s.hosts n).disk p) (hw' : p'.node.Wf) (hv : s.Vouches i)
    (ho : p.handle M i = some o) (hx : o.result = .ok (p', out)) :
    (s.settle n p o).CommittedTo p'.node.commitIndex := by
  have htr := settle_trace s n p o
  cases (Proc.handled ho hx).commit with
  | kept heq => exact (h.nodes hp).mono heq.le htr
  | told hle => exact System.CommittedTo.mono hv hle htr
  | installed heq => exact System.CommittedTo.mono hv.2 heq.le htr
  | counted hlead hlog =>
    intro j hj hjc
    by_cases hold : j ≤ p.node.commitIndex
    · exact (h.nodes hp).mono le_rfl htr j hj hold
    have hbase : p'.node.log.base = p.node.log.base := by rw [RaftLog.base, hlog, RaftLog.base]
    have hb := hlive.wf.base_le
    have hlast := hw'.commit_le
    rw [hw'.numbered.lastLogIndex_eq, hbase] at hlast
    have hlt : j - p'.node.log.base - 1 < p'.node.log.entries.length := by omega
    have hget := List.getElem?_eq_getElem hlt
    have hindex := hw'.numbered.index_eq hget
    refine ⟨_, ⟨n, p'.node.currentTerm, ((s.hosts n).disk.writeAll o.writes).snapshot,
      p'.node.log, p'.node.commitIndex, ?_, List.mem_of_getElem? hget, by omega⟩, by omega⟩
    rw [System.settle, hx]
    refine List.mem_append_right _ (List.mem_append_right _ ?_)
    rw [observeLeader, if_neg (not_not.mpr hlead)]
    refine List.mem_append_right _ ?_
    rw [if_pos (by omega)]
    exact List.mem_singleton_self _

theorem settle_new_call {call : Call D} (hc : call ∈ (s.settle n p o).calls) :
    call ∈ s.calls ∨ ∃ p' out, o.result = .ok (p', out) ∧
      call ∈ out.calls n (s.hosts n).incarnation p.node.peers := by
  rw [System.settle] at hc
  split at hc
  · exact Or.inl hc
  · rename_i p' out hres
    rcases List.mem_append.mp hc with hc | hc
    · exact Or.inl hc
    · exact Or.inr ⟨p', out, hres, hc⟩

theorem settle_proc {m : NodeId} {q : Proc σ D}
    (hq : ((s.settle n p o).hosts m).proc = some q) :
    (m = n ∧ ∃ out, o.result = .ok (q, out)) ∨ m ≠ n ∧ (s.hosts m).proc = some q := by
  by_cases hm : m = n
  · subst hm
    cases hres : o.result with
    | error err =>
      rw [settle_host_error hres] at hq
      cases hq
    | ok x =>
      rw [settle_host hres] at hq
      cases hq
      exact Or.inl ⟨rfl, x.2, rfl⟩
  · rw [settle_host_of_ne hm] at hq
    exact Or.inr ⟨hm, hq⟩

theorem settle_disk (s : System σ D) (n : NodeId) (p : Proc σ D) (o : StepOutcome σ D) :
    ((s.settle n p o).hosts n).disk = (s.hosts n).disk.writeAll o.writes := by
  cases hres : o.result with
  | error err => rw [settle_host_error hres]
  | ok x => rw [settle_host hres]

theorem Evidenced.settle (h : Evidenced s) (hp : (s.hosts n).proc = some p)
    (hlive : Live cfg (s.hosts n).disk p) (hi : i.Numbered) (hv : s.Vouches i)
    (ho : p.handle M i = some o) : Evidenced (s.settle n p o) := by
  have htr := settle_trace s n p o
  obtain ⟨hsaved, hparked⟩ := h.snapshots hp hlive hi hv ho
  refine ⟨?_, ?_, ?_, ?_, ?_⟩
  · intro m q hq
    rcases settle_proc hq with ⟨rfl, out, hres⟩ | ⟨_, hq⟩
    · have hlive' := (hlive.acts (p.handle_cases hlive.wf hi ho)).2 _ hres
      exact h.commits hp hlive hlive'.wf hv ho hres
    · exact (h.nodes hq).mono le_rfl htr
  · intro m snap hsnap
    have hfile : 0 < snap.lastIncludedIndex ∧ s.CommittedTo snap.lastIncludedIndex := by
      by_cases hm : m = n
      · rw [hm, settle_disk] at hsnap
        exact hsaved snap hsnap
      · rw [settle_host_of_ne hm] at hsnap
        exact h.files hsnap
    exact ⟨hfile.1, hfile.2.mono le_rfl htr⟩
  · intro m q snap hq hpend
    rcases settle_proc hq with ⟨rfl, out, hres⟩ | ⟨hm, hq⟩
    · rw [settle_disk]
      exact hparked _ hres snap hpend
    · rw [settle_host_of_ne hm]
      exact h.parked hq hpend
  · intro call hc args hreq
    rcases settle_new_call hc with hc | ⟨p', out, hres, hc⟩
    · exact (h.appends call hc args hreq).mono le_rfl htr
    · cases (Proc.handled ho hres).calls hlive.wf hlive.applier hc with
      | vote _ hvote =>
        rw [hreq] at hvote
        cases hvote
      | append peer target args' happ _ hout =>
        rw [hreq] at happ
        cases happ
        rw [(outboundTo_append hout).2.2.2.2]
        exact (h.nodes hp).mono le_rfl htr
  · intro call hc args hreq
    rcases settle_new_call hc with hc | ⟨p', out, hres, hc⟩
    · exact ⟨(h.installs call hc args hreq).1, (h.installs call hc args hreq).2.mono le_rfl htr⟩
    · cases (Proc.handled ho hres).calls hlive.wf hlive.applier hc with
      | vote _ hvote =>
        rw [hreq] at hvote
        cases hvote
      | append _ _ _ happ =>
        rw [hreq] at happ
        cases happ

theorem Evidenced.set_host (h : Evidenced s) {host : Host σ D}
    (hdisk : host.disk = (s.hosts n).disk)
    (hproc : ∀ {p}, host.proc = some p → s.CommittedTo p.node.commitIndex ∧
      ∀ snap, p.node.pendingSnapshot = some snap → host.disk.snapshot = some snap) :
    Evidenced { s with hosts := Function.update s.hosts n host } := by
  refine ⟨?_, ?_, ?_, h.appends, h.installs⟩
  · intro m q hq
    by_cases hm : m = n
    · subst hm
      simp only [Function.update_self] at hq
      exact (hproc hq).1
    · simp only [Function.update_of_ne hm] at hq
      exact h.nodes hq
  · intro m snap hsnap
    by_cases hm : m = n
    · subst hm
      simp only [Function.update_self, hdisk] at hsnap
      exact h.files hsnap
    · simp only [Function.update_of_ne hm] at hsnap
      exact h.files hsnap
  · intro m q snap hq hpend
    by_cases hm : m = n
    · subst hm
      simp only [Function.update_self] at hq ⊢
      exact (hproc hq).2 snap hpend
    · simp only [Function.update_of_ne hm] at hq ⊢
      exact h.parked hq hpend

theorem evidenced_init : Evidenced (System.init : System σ D) :=
  ⟨by rintro _ _ ⟨⟩, by rintro _ _ ⟨⟩, by rintro _ _ _ ⟨⟩, by rintro _ ⟨⟩, by rintro _ ⟨⟩⟩

theorem Evidenced.boot (h : Evidenced s) {rn : RaftNode D}
    (hrn : newNode cfg (s.hosts n).disk = .ok rn) :
    Evidenced { s with
      hosts := Function.update s.hosts n
        ⟨(s.hosts n).disk, (s.hosts n).incarnation + 1, some (Proc.boot M rn)⟩ } := by
  obtain ⟨_, _, happ, hcommit, hpend, _⟩ := newNode_caughtUp hrn
  refine h.set_host rfl ?_
  rintro _ ⟨⟩
  refine ⟨?_, fun snap hs => ?_⟩
  · change s.CommittedTo rn.commitIndex
    rw [hcommit, happ]
    cases hsnap : (s.hosts n).disk.snapshot with
    | none =>
      intro j hj hj0
      exact absurd (hj.trans_le hj0) (Nat.lt_irrefl 0)
    | some snap => exact (h.files hsnap).2
  · rw [show rn.pendingSnapshot = some snap from hs] at hpend
    cases hpend

theorem Evidenced.step (h : Evidenced s)
    (hrun : Runs (System.step M c settings) Always System.init s) {e : Event D}
    (hst : s.step M c settings e = some t) : Evidenced t := by
  obtain ⟨a, ha⟩ := exists_account hrun
  have hran : ∀ {n i u out}, i.Numbered → s.run M n i = some (u, out) → s.Vouches i →
      Evidenced u := by
    intro n i u out hi hx hv
    obtain ⟨p, o, hp, ho, rfl, _⟩ := run_cases hx
    obtain ⟨halive, _, _⟩ := ha.related (ha.member hp) hp
    exact h.settle hp halive.live hi hv ho
  have hrequest : ∀ {call : Call D}, call ∈ s.calls → s.Vouches call.request.input := by
    intro call hc
    cases hreq : call.request with
    | vote args => trivial
    | append args => exact h.appends call hc args hreq
    | snapshot args => exact h.installs call hc args hreq
  cases stepped_of_step hst with
  | boot n rn _ _ hrn => exact h.boot hrn
  | crash n p _ => exact h.set_host rfl (by rintro _ ⟨⟩)
  | act n i t out hi hx =>
    refine hran (inputs_numbered hrun hst rfl) hx ?_
    cases i with
    | appendEntries args | installSnapshot args => cases hi
    | _ => trivial
  | unsaved j task _ _ => exact ⟨h.nodes, h.files, h.parked, h.appends, h.installs⟩
  | loaded j task p snap _ _ _ hsnap =>
    refine ⟨h.nodes, h.files, h.parked, ?_, ?_⟩
    · intro call hc args hreq
      rcases List.mem_append.mp hc with hc | hc
      · exact h.appends call hc args hreq
      · rw [List.mem_singleton.mp hc] at hreq
        cases hreq
    · intro call hc args hreq
      rcases List.mem_append.mp hc with hc | hc
      · exact h.installs call hc args hreq
      · rw [List.mem_singleton.mp hc] at hreq
        cases hreq
        exact h.files hsnap
  | ignored k call t out hk hx _ =>
    exact hran (inputs_numbered hrun hst (inputOf_deliver hk)) hx
      (hrequest (List.mem_of_getElem? hk))
  | answered k call u out reply hk hx _ =>
    have hu := hran (inputs_numbered hrun hst (inputOf_deliver hk)) hx
      (hrequest (List.mem_of_getElem? hk))
    exact ⟨hu.nodes, hu.files, hu.parked, hu.appends, hu.installs⟩
  | received j k reply call i u out hj hk _ _ hi hx =>
    have hv : s.Vouches i := by
      cases reply <;> rw [Call.input] at hi <;> split at hi <;> cases hi <;> trivial
    have hu := hran (inputs_numbered hrun hst (inputOf_receive hj hk hi)) hx hv
    exact ⟨hu.nodes, hu.files, hu.parked, hu.appends, hu.installs⟩

theorem evidenced_of_runs (hrun : Runs (System.step M c settings) Always System.init s) :
    Evidenced s := by
  induction hrun with
  | refl => exact evidenced_init
  | tail hrun _ hst ih => exact ih.step hrun hst

end Evidence

section Agreement

variable {M : StateMachine σ D} {c : ValidCluster} {settings : NodeId → Config}
  {s t : System σ D} {n : NodeId} {p : Proc σ D} {o : StepOutcome σ D}

theorem settle_committed {m : NodeId} {term ci : ℕ} {snap : Option (Snapshot D)} {log : RaftLog}
    (hob : Observation.committed m term snap log ci ∈ (s.settle n p o).trace) :
    Observation.committed m term snap log ci ∈ s.trace ∨ ∃ p' out, o.result = .ok (p', out) ∧
      log = p'.node.log ∧ ci = p'.node.commitIndex := by
  cases traced_of_settle hob with
  | old hold => exact Or.inl hold
  | committed p' out _ hres => exact Or.inr ⟨p', out, hres, rfl, rfl⟩

theorem step_committed {e : Event D} (hst : s.step M c settings e = some t) {m : NodeId}
    {term ci : ℕ} {snap : Option (Snapshot D)} {log : RaftLog}
    (hob : Observation.committed m term snap log ci ∈ t.trace) :
    Observation.committed m term snap log ci ∈ s.trace ∨ ∃ n p', (t.hosts n).proc = some p' ∧
      log = p'.node.log ∧ ci = p'.node.commitIndex := by
  have hran : ∀ {n i u out}, s.run M n i = some (u, out) →
      Observation.committed m term snap log ci ∈ u.trace →
      Observation.committed m term snap log ci ∈ s.trace ∨ ∃ n p', (u.hosts n).proc = some p' ∧
        log = p'.node.log ∧ ci = p'.node.commitIndex := by
    intro n i u out hx hob
    obtain ⟨p, o, _, _, rfl, _⟩ := run_cases hx
    rcases settle_committed hob with hold | ⟨p', out, hres, hlog, hci⟩
    · exact Or.inl hold
    · exact Or.inr ⟨n, p', by rw [settle_host hres], hlog, hci⟩
  cases stepped_of_step hst with
  | boot | crash | unsaved | loaded => exact Or.inl hob
  | act n i t out _ hx | ignored k call t out _ hx | answered k call u out reply _ hx
  | received j k reply call i u out _ _ _ _ _ hx =>
    have hnew := hran hx hob
    exact hnew

variable {R : Represents M} {fresh : Prop} {a a' : Abstract}

/-- Up to its commit index, a node's entries are the chosen ones. -/
theorem NodeRel.committed_chosen {rn : RaftNode D} (h : NodeRel a n rn) (hi : Valid c a)
    (hn : rn.log.Numbered) {e : LogEntry} (he : e ∈ rn.log.entries)
    (hle : e.index ≤ rn.commitIndex) : ∃ k, e.index = k + 1 ∧ a.chosen[k]? = some e := by
  obtain ⟨j, hj⟩ := List.mem_iff_getElem?.mp he
  have hindex := hn.index_eq hj
  refine ⟨rn.log.base + j, hindex, ?_⟩
  have hlog : (a.log n)[rn.log.base + j]? = some e := by
    rw [h.getElem?_above hi (Nat.le_add_right _ _), Nat.add_sub_cancel_left]
    exact hj
  have htake := Invariant.take_commit hi n h.commit.ge
  rw [← getElem?_of_take_eq htake (by omega)]
  exact hlog

def Agreed (s : System σ D) (a : Abstract) : Prop :=
  ∀ e, s.Committed e → ∃ k, e.index = k + 1 ∧ a.chosen[k]? = some e

theorem Agreed.step (h : Agreed s a) (hg : Grows a a') (hsim : Sim R c settings fresh t a')
    {e : Event D} (hst : s.step M c settings e = some t) : Agreed t a' := by
  rintro x ⟨m, term, snap, log, ci, hob, hx, hle⟩
  rcases step_committed hst hob with hold | ⟨n, p', hp, rfl, rfl⟩
  · obtain ⟨k, hindex, hk⟩ := h x ⟨m, term, snap, log, ci, hold, hx, hle⟩
    exact ⟨k, hindex, getElem?_of_isPrefix hg.chosen hk⟩
  · obtain ⟨halive, hrel, _⟩ := hsim.related (hsim.member hp) hp
    exact halive.node.committed_chosen hrel.valid hrel.wf.numbered hx hle

theorem exists_agreed_account (R : Represents M)
    (hrun : Runs (System.step M c settings) Always System.init s) :
    ∃ a, Sim R c settings False s a ∧ Agreed s a := by
  have hinit : Sim R c settings False System.init (initial NodeId LogEntry) ∧
      Agreed (System.init : System σ D) (initial NodeId LogEntry) :=
    ⟨Sim.init R c settings False, by rintro _ ⟨_, _, _, _, _, ⟨⟩, _⟩⟩
  obtain ⟨a, _, ha⟩ : ∃ a, EvolvesTo c (initial NodeId LogEntry) a ∧
      (Sim R c settings False s a ∧ Agreed s a) := by
    refine hrun.simulate (R := fun s a => Sim R c settings False s a ∧ Agreed s a)
      Evolves.refl Evolves.trans hinit ?_
    rintro u e v b ⟨hsim, hagreed⟩ _ hst
    obtain ⟨b', hev, hsim'⟩ := hsim.step False.elim hst
    exact ⟨b', hev, hsim', hagreed.step (hev.grows hsim.valid) hsim' hst⟩
  exact ⟨a, ha⟩

end Agreement

section Snapshots

def System.CommittedPrefix (s : System σ D) (l : List LogEntry) : Prop :=
  ∀ k e, l[k]? = some e → e.index = k + 1 ∧ s.Committed e

/-- The places where a snapshot can be. A request stays deliverable once it was sent. -/
inductive System.HasSnapshot (c : ValidCluster) (s : System σ D) : Snapshot D → Prop where
  | stored {n snap} (hn : n ∈ c.members) (hs : (s.hosts n).disk.snapshot = some snap) :
      HasSnapshot c s snap
  | sent {call args} (hc : call ∈ s.calls) (hreq : call.request = .snapshot args) :
      HasSnapshot c s args.snapshot
  | parked {n p snap} (hp : (s.hosts n).proc = some p)
      (hs : p.node.pendingSnapshot = some snap) : HasSnapshot c s snap

variable {M : StateMachine σ D} {R : Represents M} {c : ValidCluster}
  {settings : NodeId → Config} {fresh : Prop} {s : System σ D} {a : Abstract} {n : NodeId}

theorem Agreed.unique (h : Agreed s a) {e e' : LogEntry} (he : s.Committed e)
    (he' : s.Committed e') (hindex : e.index = e'.index) : e = e' := by
  obtain ⟨k, hk, hget⟩ := h e he
  obtain ⟨k', hk', hget'⟩ := h e' he'
  have hkk : k = k' := by omega
  rw [hkk, hget'] at hget
  exact (Option.some.inj hget).symm

theorem Agreed.committedPrefix (h : Agreed s a) {i : ℕ} (hto : s.CommittedTo i) :
    s.CommittedPrefix (a.chosen.take i) ∧ (a.chosen.take i).length = i := by
  have hchosen : ∀ k < i, ∃ e, a.chosen[k]? = some e ∧ e.index = k + 1 ∧ s.Committed e := by
    intro k hk
    obtain ⟨e, he, hindex⟩ := hto (k + 1) k.succ_pos hk
    obtain ⟨j, hj, hget⟩ := h e he
    have hjk : j = k := by omega
    rw [hjk] at hget
    exact ⟨e, hget, hindex, he⟩
  refine ⟨?_, ?_⟩
  · intro k e hk
    have hlt : k < i := by
      have := lt_of_getElem? hk
      rw [List.length_take] at this
      omega
    obtain ⟨e', hget, hfacts⟩ := hchosen k hlt
    rw [List.getElem?_take_of_lt hlt, hget] at hk
    cases hk
    exact hfacts
  · rw [List.length_take]
    cases i with
    | zero => exact Nat.zero_min _
    | succ j =>
      obtain ⟨e, hget, _⟩ := hchosen j (Nat.lt_succ_self j)
      exact Nat.min_eq_left (lt_of_getElem? hget)

theorem HostRel.saved {host : Host σ D} (h : HostRel R c settings n a host) {snap : Snapshot D}
    (hs : host.disk.snapshot = some snap) :
    HoldsPrefix R a snap ∧
      snap.lastIncludedTerm = termBefore LogEntry.term a.chosen snap.lastIncludedIndex := by
  cases hp : host.proc with
  | none =>
    obtain ⟨⟨d, hd, hn⟩, hsaved⟩ := h.dead hp
    obtain ⟨hindex, hterm⟩ := mirrors_index hd hs
    refine ⟨hsaved hs, ?_⟩
    rw [hterm, hindex]
    exact hn.sentinel
  | some p =>
    have halive := h.alive hp
    obtain ⟨hindex, hterm⟩ := mirrors_index halive.live.mirrors hs
    refine ⟨halive.saved hs, ?_⟩
    rw [hterm, hindex]
    exact halive.node.sentinel

theorem Sim.snapshot_chosen (h : Sim R c settings fresh s a) (hev : Evidenced s)
    {snap : Snapshot D} (hs : s.HasSnapshot c snap) :
    HoldsPrefix R a snap ∧
      snap.lastIncludedTerm = termBefore LogEntry.term a.chosen snap.lastIncludedIndex ∧
      0 < snap.lastIncludedIndex ∧ s.CommittedTo snap.lastIncludedIndex := by
  cases hs with
  | stored hn hs =>
    obtain ⟨hdata, hterm⟩ := (h.hosts _ hn).saved hs
    exact ⟨hdata, hterm, hev.files hs⟩
  | sent hc hreq =>
    have hrel := (h.calls _ hc).request
    rw [hreq] at hrel
    exact ⟨hrel.2, hrel.1.term, hev.installs _ hc _ hreq⟩
  | parked hp hs =>
    have hfile := hev.parked hp hs
    obtain ⟨hdata, hterm⟩ := (h.hosts _ (h.member hp)).saved hfile
    exact ⟨hdata, hterm, hev.files hfile⟩

/-- Every snapshot holds the entries that have been committed up to its index. -/
theorem snapshot_committed (h : Sim R c settings fresh s a) (hagreed : Agreed s a)
    (hev : Evidenced s) {snap : Snapshot D} (hs : s.HasSnapshot c snap) :
    ∃ l, s.CommittedPrefix l ∧ l.length = snap.lastIncludedIndex ∧
      l.getLast?.map LogEntry.term = some snap.lastIncludedTerm ∧ R.data l snap.data := by
  obtain ⟨hdata, hterm, hpos, hto⟩ := h.snapshot_chosen hev hs
  obtain ⟨hfirst, hlen⟩ := hagreed.committedPrefix hto
  refine ⟨_, hfirst, hlen, ?_, hdata⟩
  obtain ⟨j, hj⟩ : ∃ j, snap.lastIncludedIndex = j + 1 :=
    ⟨snap.lastIncludedIndex - 1, by omega⟩
  rw [hj] at hterm hlen ⊢
  have hlt : j < (a.chosen.take (j + 1)).length := by omega
  have hget := List.getElem?_eq_getElem hlt
  rw [hterm, termBefore, List.getLast?_eq_getElem?, hlen, Nat.add_sub_cancel, hget,
    ← List.getElem?_take_of_lt (Nat.lt_succ_self j), hget]
  rfl

/-- While the applier has nothing to do, the state machine has been given the entries that
have been committed up to what was last applied. -/
theorem idle_committed (h : Sim R c settings fresh s a) (hagreed : Agreed s a)
    (hev : Evidenced s) {p : Proc σ D} (hp : (s.hosts n).proc = some p)
    (hstarted : p.node.started = true) (hidle : p.phase = .waiting) :
    ∃ l, s.CommittedPrefix l ∧ l.length = p.node.lastApplied ∧ R.state l p.machine := by
  obtain ⟨halive, _, _⟩ := h.related (h.member hp) hp
  have happ := halive.live.applier
  have hle : p.node.lastApplied ≤ p.node.commitIndex := happ.applied_le.trans happ.reach_le
  obtain ⟨hfirst, hlen⟩ :=
    hagreed.committedPrefix ((hev.nodes hp).mono hle (List.prefix_refl s.trace))
  obtain ⟨_, hstate⟩ := halive.machine.state_at hidle (Or.inr hstarted)
  exact ⟨_, hfirst, hlen, hstate⟩

end Snapshots

end Raft
