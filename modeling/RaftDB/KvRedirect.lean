import RaftDB.RaftCommitted

/-!
# Redirects

A node that is not the leader answers a client with the leader it last heard of. That hint is
written by the two requests of a leader and by a won election, and forgotten with every new term,
so it always names the winner of the node's own term. A snapshot request may carry the term of a
round long past; its sender won that term all the same.
-/
namespace Raft

open Storage ClusterConfig TransitionSystem
open RaftNode hiding id

variable {σ D : Type}

def Input.leader : Input D → Option (NodeId × ℕ)
  | .appendEntries args => some (args.leaderID, args.term)
  | .installSnapshot args => some (args.leaderID, args.term)
  | _ => none

/-- What an input does to the leader that a node knows of. -/
inductive HintStep (rn rn' : RaftNode D) (i : Input D) : Prop where
  | kept : rn'.currentTerm = rn.currentTerm → rn'.leaderID = rn.leaderID →
      (rn'.state = .leader → rn.state = .leader) → HintStep rn rn' i
  | forgotten : rn'.leaderID = None → rn'.state ≠ .leader → HintStep rn rn' i
  | won : rn.state ≠ .leader → rn'.state = .leader → rn'.leaderID = rn.id → HintStep rn rn' i
  | heard (leaderID : NodeId) (term : ℕ) : i.leader = some (leaderID, term) →
      rn'.currentTerm = term → rn'.leaderID = leaderID → rn'.state ≠ .leader → HintStep rn rn' i

section Steps

variable {rn rn' : RaftNode D} {i : Input D}

theorem HintStep.refl (rn : RaftNode D) (i : Input D) : HintStep rn rn i := .kept rfl rfl id

theorem HintStep.deposed {term : ℕ} (h : rn.currentTerm < term) :
    HintStep rn (rn.becomeFollowerLocked term).1 i := by
  rw [becomeFollowerLocked, if_pos h]
  exact .forgotten rfl (by simp)

theorem handleRequestVote_hint {args : RequestVoteArgs} {reply : RequestVoteReply}
    (h : (rn.handleRequestVote args).result = .ok (rn', reply)) : HintStep rn rn' i := by
  rcases handleRequestVote_frame h with rfl | ⟨vote, rfl⟩
  · exact .refl _ _
  rw [inTerm]
  split
  · exact .forgotten rfl (by simp)
  · exact .kept rfl rfl id

theorem handleAppendEntries_hint {args : AppendEntriesArgs} {reply : AppendEntriesReply}
    (h : (rn.handleAppendEntries args).result = .ok (rn', reply)) :
    HintStep rn rn' (.appendEntries args) := by
  rcases handleAppendEntries_frame h with rfl | ⟨hterm, log, n, rfl, _⟩
  · exact .refl _ _
  · exact .heard _ _ rfl (followerOf_currentTerm hterm args.leaderID) rfl (by simp [followerOf])

theorem handleInstallSnapshot_hint {args : InstallSnapshotArgs D} {reply : InstallSnapshotReply}
    (h : (rn.handleInstallSnapshot args).result = .ok (rn', reply)) :
    HintStep rn rn' (.installSnapshot args) := by
  rcases handleInstallSnapshot_frame h with rfl | ⟨hterm, log, n, pending, rfl, _⟩
  · exact .refl _ _
  · exact .heard _ _ rfl (followerOf_currentTerm hterm args.leaderID) rfl (by simp [followerOf])

theorem handleRequestVoteReply_hint {term : ℕ} {reply : RequestVoteReply} {u : Unit}
    (h : (rn.handleRequestVoteReply term reply).result = .ok (rn', u)) : HintStep rn rn' i := by
  have hcases := rn.handleRequestVoteReply_cases term reply
  generalize rn.handleRequestVoteReply term reply = o at h hcases
  cases hcases with
  | ignored =>
    cases h
    exact .refl _ _
  | deposed hlt =>
    cases h
    exact .deposed hlt
  | counted =>
    cases h
    exact .kept rfl rfl id
  | won hcand =>
    cases h
    exact .won (by simp [hcand]) rfl rfl

theorem startElectionLocked_hint {r : Option RequestVoteArgs} (hs : rn.state ≠ .leader)
    (h : rn.startElectionLocked.result = .ok (rn', r)) : HintStep rn rn' i := by
  rw [startElectionLocked, startElectionIn] at h
  dsimp only at h
  split at h
  · cases h
    exact .won hs rfl rfl
  · cases h
    exact .forgotten rfl (by simp)

theorem handleAppendEntriesReply_hint {peer : NodeId} {term : ℕ} {args : AppendEntriesArgs}
    {reply : AppendEntriesReply} {u : Unit}
    (h : (rn.handleAppendEntriesReply peer term args reply).result = .ok (rn', u)) :
    HintStep rn rn' i := by
  have hcases := rn.handleAppendEntriesReply_cases peer term args reply
  generalize rn.handleAppendEntriesReply peer term args reply = o at h hcases
  cases hcases with
  | ignored =>
    cases h
    exact .refl _ _
  | deposed hlt =>
    cases h
    exact .deposed hlt
  | confirmed _ _ _ hadv =>
    cases h
    obtain ⟨n, rfl⟩ := advanceCommitIndexLocked_frame hadv
    exact .kept rfl rfl id
  | panicked => cases h
  | rejected =>
    cases h
    exact .kept rfl rfl id

theorem handleInstallSnapshotReply_hint {peer : NodeId} {term : ℕ}
    {args : InstallSnapshotArgs D} {reply : InstallSnapshotReply} {u : Unit}
    (h : (rn.handleInstallSnapshotReply peer term args reply).result = .ok (rn', u)) :
    HintStep rn rn' i := by
  have hcases := rn.handleInstallSnapshotReply_cases peer term args reply
  generalize rn.handleInstallSnapshotReply peer term args reply = o at h hcases
  cases hcases with
  | ignored =>
    cases h
    exact .refl _ _
  | deposed hlt =>
    cases h
    exact .deposed hlt
  | caughtUp =>
    cases h
    exact .kept rfl rfl id

/-- What any step of a process does to the leader that its node knows of. -/
theorem Proc.Handled.hint {M : StateMachine σ D} {p p' : Proc σ D} {out : Output D}
    (h : p.Handled M i p' out) : HintStep p.node p'.node i := by
  cases h with
  | started | resumed | stopped => exact .kept rfl rfl id
  | replicated => exact .refl _ _
  | stood hs hres => exact startElectionLocked_hint hs hres
  | proposed hres =>
    obtain ⟨log, n, rfl, _⟩ := proposeAt_frame hres
    exact .kept rfl rfl id
  | voted hres => exact handleRequestVote_hint hres
  | appended hres => exact handleAppendEntries_hint hres
  | installed hres => exact handleInstallSnapshot_hint hres
  | voteReply hres => exact handleRequestVoteReply_hint hres
  | appendReply hres => exact handleAppendEntriesReply_hint hres
  | snapshotReply hres => exact handleInstallSnapshotReply_hint hres
  | applier ho hx =>
    obtain ⟨log, applied, pending, heq⟩ := applier_frame ho hx
    rw [heq]
    exact .kept rfl rfl id

theorem Proc.Handled.tasks {M : StateMachine σ D} {p p' : Proc σ D} {out : Output D}
    (h : p.Handled M i p' out) (hw : p.node.Wf) (ha : ApplierOk p.node p.phase) {n : NodeId}
    {inc : ℕ} {task : Task} (ht : task ∈ out.tasks n inc) :
    task.node = n ∧ task.term = p.node.currentTerm ∧ p.node.state = .leader := by
  cases h with
  | @stood _ r => cases r <;> cases ht
  | replicated hround =>
    obtain ⟨msg, hm, hmsg⟩ := List.mem_filterMap.mp ht
    cases msg with
    | append target args => cases hmsg
    | snapshot target =>
      cases hmsg
      obtain ⟨hlead, hterm, _⟩ := replicationRound_mem hround hm
      exact ⟨rfl, hterm.symm, hlead⟩
  | applier ho hx => cases p.applier_step hw ha ho <;> cases hx <;> cases ht
  | _ => cases ht

end Steps

section Runs

variable {M : StateMachine σ D} {c : ValidCluster} {settings : NodeId → Config}
  {s t : System σ D} {n : NodeId} {p p' : Proc σ D} {i : Input D} {o : StepOutcome σ D}
  {out : Output D} {cfg : Config}

def System.Elected (s : System σ D) (n : NodeId) (term : ℕ) : Prop :=
  ∃ snapshot log, Observation.elected n term snapshot log ∈ s.trace

theorem System.Elected.mono {term : ℕ} (h : s.Elected n term) (htr : s.trace <+: t.trace) :
    t.Elected n term := by
  obtain ⟨snap, log, hob⟩ := h
  exact ⟨snap, log, htr.subset hob⟩

/-- Whoever is taken for the leader of a term has won it: the leader a node knows of, the node
itself while it leads, and the sender of a request. -/
structure Hinted (c : ValidCluster) (s : System σ D) : Prop where
  member : ∀ {n term}, s.Elected n term → n ∈ c.members
  known : ∀ {n p}, (s.hosts n).proc = some p → p.node.leaderID ≠ None →
    s.Elected p.node.leaderID p.node.currentTerm
  leading : ∀ {n p}, (s.hosts n).proc = some p → p.node.state = .leader →
    s.Elected n p.node.currentTerm
  calls : ∀ call ∈ s.calls, ∀ leaderID term, call.request.input.leader = some (leaderID, term) →
    s.Elected leaderID term
  tasks : ∀ task ∈ s.tasks, s.Elected task.node task.term

theorem hinted_init : Hinted c (System.init : System σ D) := by
  constructor
  · intro n term hn
    obtain ⟨_, _, hob⟩ := hn
    cases hob
  · intro n p hp
    cases hp
  · intro n p hp
    cases hp
  · intro call hc
    cases hc
  · intro task ht
    cases ht

theorem settle_elected (hres : o.result = .ok (p', out)) (hold : p.node.state ≠ .leader)
    (hnew : p'.node.state = .leader) : (s.settle n p o).Elected n p'.node.currentTerm := by
  refine ⟨((s.hosts n).disk.writeAll o.writes).snapshot, p'.node.log, ?_⟩
  rw [System.settle, hres]
  apply List.mem_append_right
  apply List.mem_append_right
  simp [observeLeader, hnew, hold]

theorem settle_new_task {task : Task} (ht : task ∈ (s.settle n p o).tasks) :
    task ∈ s.tasks ∨ ∃ p' out, o.result = .ok (p', out) ∧
      task ∈ out.tasks n (s.hosts n).incarnation := by
  rw [System.settle] at ht
  split at ht
  · exact Or.inl ht
  · rename_i p' out hres
    rcases List.mem_append.mp ht with ht | ht
    · exact Or.inl ht
    · exact Or.inr ⟨p', out, hres, ht⟩

theorem settle_new_election {m : NodeId} {term : ℕ} (h : (s.settle n p o).Elected m term) :
    s.Elected m term ∨ m = n := by
  obtain ⟨snap, log, hob⟩ := h
  cases traced_of_settle hob with
  | old hold => exact Or.inl ⟨snap, log, hold⟩
  | elected => exact Or.inr rfl

theorem Hinted.node (h : Hinted c s) (hp : (s.hosts n).proc = some p) (hid : p.node.id = n)
    (hi : ∀ leaderID term, i.leader = some (leaderID, term) → s.Elected leaderID term)
    (ho : p.handle M i = some o) (hres : o.result = .ok (p', out)) :
    (p'.node.leaderID ≠ None →
      (s.settle n p o).Elected p'.node.leaderID p'.node.currentTerm) ∧
    (p'.node.state = .leader → (s.settle n p o).Elected n p'.node.currentTerm) := by
  have htr := settle_trace s n p o
  cases (Proc.handled ho hres).hint with
  | kept hterm hleader hstate =>
    rw [hterm, hleader]
    exact ⟨fun hk => (h.known hp hk).mono htr, fun hl => (h.leading hp (hstate hl)).mono htr⟩
  | forgotten hleader hstate => exact ⟨fun hk => absurd hleader hk, fun hl => absurd hl hstate⟩
  | won hold hnew hleader =>
    have hwon := settle_elected (s := s) (n := n) hres hold hnew
    rw [hleader, hid]
    exact ⟨fun _ => hwon, fun _ => hwon⟩
  | heard leaderID term hin hterm hleader hstate =>
    rw [hterm, hleader]
    exact ⟨fun _ => (hi leaderID term hin).mono htr, fun hl => absurd hl hstate⟩

theorem Hinted.settle (h : Hinted c s) (hn : n ∈ c.members) (hp : (s.hosts n).proc = some p)
    (hid : p.node.id = n) (hlive : Live cfg (s.hosts n).disk p)
    (hi : ∀ leaderID term, i.leader = some (leaderID, term) → s.Elected leaderID term)
    (ho : p.handle M i = some o) : Hinted c (s.settle n p o) := by
  have htr := settle_trace s n p o
  constructor
  · intro m term hm
    rcases settle_new_election hm with hm | rfl
    · exact h.member hm
    · exact hn
  · intro m q hq hk
    rcases settle_proc hq with ⟨rfl, out, hres⟩ | ⟨_, hq⟩
    · exact (h.node hp hid hi ho hres).1 hk
    · exact (h.known hq hk).mono htr
  · intro m q hq hl
    rcases settle_proc hq with ⟨rfl, out, hres⟩ | ⟨_, hq⟩
    · exact (h.node hp hid hi ho hres).2 hl
    · exact (h.leading hq hl).mono htr
  · intro call hc leaderID term hin
    rcases settle_new_call hc with hc | ⟨p', out, hres, hc⟩
    · exact (h.calls call hc leaderID term hin).mono htr
    · cases (Proc.handled ho hres).calls hlive.wf hlive.applier hc with
      | vote args hreq =>
        rw [hreq] at hin
        cases hin
      | append peer target args hreq hlead hout =>
        rw [hreq] at hin
        cases hin
        obtain ⟨_, hterm, hleader, _⟩ := outboundTo_append hout
        rw [hterm, hleader, hid]
        exact (h.leading hp hlead).mono htr
  · intro task ht
    rcases settle_new_task ht with ht | ⟨p', out, hres, ht⟩
    · exact (h.tasks task ht).mono htr
    · obtain ⟨hnode, hterm, hlead⟩ := (Proc.handled ho hres).tasks hlive.wf hlive.applier ht
      rw [hnode, hterm]
      exact (h.leading hp hlead).mono htr

theorem Hinted.set_host (h : Hinted c s) {host : Host σ D}
    (hproc : ∀ p, host.proc = some p → p.node.leaderID = None ∧ p.node.state = .follower) :
    Hinted c { s with hosts := Function.update s.hosts n host } := by
  refine ⟨h.member, ?_, ?_, h.calls, h.tasks⟩
  · intro m q hq hk
    by_cases hm : m = n
    · subst hm
      simp only [Function.update_self] at hq
      exact absurd (hproc q hq).1 hk
    · simp only [Function.update_of_ne hm] at hq
      exact h.known hq hk
  · intro m q hq hl
    by_cases hm : m = n
    · subst hm
      simp only [Function.update_self] at hq
      rw [(hproc q hq).2] at hl
      cases hl
    · simp only [Function.update_of_ne hm] at hq
      exact h.leading hq hl

theorem Hinted.step (h : Hinted c s)
    (hrun : Runs (System.step M c settings) Always System.init s) {e : Event D}
    (hst : s.step M c settings e = some t) : Hinted c t := by
  obtain ⟨a, ha⟩ := exists_account hrun
  have hran : ∀ {n i u out}, s.run M n i = some (u, out) →
      (∀ leaderID term, i.leader = some (leaderID, term) → s.Elected leaderID term) →
      Hinted c u := by
    intro n i u out hx hi
    obtain ⟨p, o, hp, ho, rfl, _⟩ := run_cases hx
    obtain ⟨halive, _, hconf⟩ := ha.related (ha.member hp) hp
    exact h.settle hconf.member hp hconf.named halive.live hi ho
  cases stepped_of_step hst with
  | boot n rn _ _ hrn =>
    apply h.set_host
    rintro _ ⟨⟩
    exact newNode_leaderless hrn
  | crash n p _ =>
    apply h.set_host
    rintro _ ⟨⟩
  | act n i t out hi hx =>
    apply hran hx
    cases i with
    | appendEntries args | installSnapshot args => cases hi
    | _ => simp [Input.leader]
  | unsaved j task _ _ =>
    exact ⟨h.member, h.known, h.leading, h.calls,
      fun task ht => h.tasks task (List.mem_of_mem_eraseIdx ht)⟩
  | loaded j task p snap htask _ _ _ =>
    refine ⟨h.member, h.known, h.leading, ?_,
      fun task ht => h.tasks task (List.mem_of_mem_eraseIdx ht)⟩
    intro call hc leaderID term hin
    rcases List.mem_append.mp hc with hc | hc
    · exact h.calls call hc leaderID term hin
    · rw [List.mem_singleton.mp hc] at hin
      cases hin
      exact h.tasks task (List.mem_of_getElem? htask)
  | ignored k call t out hk hx _ => exact hran hx (h.calls call (List.mem_of_getElem? hk))
  | answered k call u out reply hk hx _ =>
    have hu := hran hx (h.calls call (List.mem_of_getElem? hk))
    exact ⟨hu.member, hu.known, hu.leading, hu.calls, hu.tasks⟩
  | received j k reply call i u out hj hk _ _ hi hx =>
    have hu : Hinted c u := by
      apply hran hx
      cases reply <;> rw [Call.input] at hi <;> split at hi <;> cases hi <;> simp [Input.leader]
    exact ⟨hu.member, hu.known, hu.leading, hu.calls, hu.tasks⟩

theorem hinted_of_runs (hrun : Runs (System.step M c settings) Always System.init s) :
    Hinted c s := by
  induction hrun with
  | refl => exact hinted_init
  | tail hrun _ hst ih => exact ih.step hrun hst

/-- A term has one winner. -/
theorem elected_unique (hrun : Runs (System.step M c settings) Always System.init s)
    {m : NodeId} {term : ℕ} (hn : s.Elected n term) (hm : s.Elected m term) : n = m := by
  obtain ⟨a, ha⟩ := exists_account hrun
  obtain ⟨_, _, hn⟩ := hn
  obtain ⟨_, _, hm⟩ := hm
  have hwn := (ha.trace _ hn).1
  have hwm := (ha.trace _ hm).1
  rw [hwn] at hwm
  exact Option.some.inj hwm

end Runs

end Raft

namespace Kv

open Raft ClusterConfig TransitionSystem

structure Redirect where
  leaderId : NodeId
  leaderAddr : String
  deriving DecidableEq, Repr

/-- The map that the daemon fills from the configuration; a missing key reads as `""`. -/
def clientAddrs (c : Cluster) : NodeId → String :=
  c.nodes.foldl (fun m n => Function.update m n.id n.clientAddr) fun _ => ""

def redirect {D : Type} (c : Cluster) (rn : RaftNode D) : Redirect :=
  ⟨rn.leaderID, clientAddrs c rn.leaderID⟩

theorem foldl_update_of_not_mem {nodes : List Node} {id : NodeId}
    (h : id ∉ nodes.map Node.id) (m : NodeId → String) :
    nodes.foldl (fun m n => Function.update m n.id n.clientAddr) m id = m id := by
  induction nodes generalizing m with
  | nil => rfl
  | cons node rest ih =>
    simp only [List.map_cons, List.mem_cons, not_or] at h
    simp [ih h.2, Function.update_of_ne h.1]

theorem clientAddrs_eq {nodes : List Node} (hnodup : (nodes.map Node.id).Nodup)
    (m : NodeId → String) {node : Node} (h : node ∈ nodes) :
    nodes.foldl (fun m n => Function.update m n.id n.clientAddr) m node.id =
      node.clientAddr := by
  induction nodes generalizing m with
  | nil => cases h
  | cons first rest ih =>
    simp only [List.map_cons, List.nodup_cons] at hnodup
    simp only [List.mem_cons] at h
    rcases h with rfl | h
    · simp [foldl_update_of_not_mem hnodup.1]
    · exact ih hnodup.2 _ h

/-- A redirect names the winner of the term that the answering node is in, with the address that
the configuration gives it; no other node has won that term, or ever leads it. -/
theorem redirect_names_winner {σ D : Type} (M : StateMachine σ D) (c : ValidCluster)
    (settings : NodeId → Config) {s : System σ D}
    (hs : Runs (System.step M c settings) Always System.init s) {n : NodeId} {p : Proc σ D}
    (hp : (s.hosts n).proc = some p) (hknown : p.node.leaderID ≠ None) :
    s.Elected p.node.leaderID p.node.currentTerm ∧
    (∃ node ∈ c.nodes, node.id = p.node.leaderID ∧
      redirect c.toCluster p.node = ⟨node.id, node.clientAddr⟩) ∧
    ∀ t, Runs (System.step M c settings) Always s t →
      (∀ m, t.Elected m p.node.currentTerm → m = (redirect c.toCluster p.node).leaderId) ∧
      ∀ m q, (t.hosts m).proc = some q → q.node.state = .leader →
        q.node.currentTerm = p.node.currentTerm →
        m = (redirect c.toCluster p.node).leaderId := by
  have hinted := hinted_of_runs hs
  have helected := hinted.known hp hknown
  refine ⟨helected, ?_, ?_⟩
  · obtain ⟨node, hnode, hid⟩ := List.mem_map.mp (ValidCluster.mem_members.mp
      (hinted.member helected))
    refine ⟨node, hnode, hid, ?_⟩
    rw [redirect, ← hid, clientAddrs, clientAddrs_eq c.ids_nodup _ hnode]
  · intro t hst
    have ht := hs.trans hst
    have hunique : ∀ m, t.Elected m p.node.currentTerm → m = p.node.leaderID := fun m hm =>
      elected_unique ht hm (helected.mono (runs_trace hst))
    refine ⟨hunique, ?_⟩
    intro m q hq hlead hterm
    apply hunique m
    rw [← hterm]
    exact (hinted_of_runs ht).leading hq hlead

theorem redirect_names_winner_trio :
    ∃ s p, trioExec System.init (trioElects ++ trioApplies) = some s ∧
      (s.hosts "n2").proc = some p ∧ redirect trio.toCluster p.node = ⟨"n1", "h1:8001"⟩ ∧
      s.Elected "n1" p.node.currentTerm ∧
      ∀ m q, (s.hosts m).proc = some q → q.node.state = .leader →
        q.node.currentTerm = p.node.currentTerm → m = "n1" := by
  have hrun : ((trioExec System.init (trioElects ++ trioApplies)).any fun s =>
      (s.hosts "n2").proc.any fun p =>
        decide (redirect trio.toCluster p.node = ⟨"n1", "h1:8001"⟩)) = true := by
    decide +kernel
  obtain ⟨s, hs, hp⟩ := (Option.any_eq_true _ _).mp hrun
  obtain ⟨p, hp, hred⟩ := (Option.any_eq_true _ _).mp hp
  have hred := of_decide_eq_true hred
  have hleader : p.node.leaderID = "n1" := congrArg Redirect.leaderId hred
  obtain ⟨hwon, _, honly⟩ := redirect_names_winner recorder trio noSettings (trio_runs hs) hp
    (by rw [hleader]; decide)
  rw [hleader] at hwon
  refine ⟨s, p, hs, hp, hred, hwon, ?_⟩
  intro m q hq hlead hterm
  rw [(honly s .refl).2 m q hq hlead hterm, hred]

end Kv
