import RaftDB.RaftCluster
import RaftDB.RaftHostRelation

/-!
# The cluster refines the protocol

One abstract state accounts for every host, for every message that may still be delivered
and for the whole trace. A step of one process is a number of moves of its abstract node; the
facts about everything else rest on histories that only grow.
-/
namespace Raft

open Storage ClusterConfig ReplicatedLog LogPrefix Function
open RaftNode hiding id

variable {σ D : Type}

section Messages

variable {M : StateMachine σ D} (R : Represents M) (c : ValidCluster) (fresh : Prop)
  (a : Abstract)

def RequestRel (caller : NodeId) : Request D → Prop
  | .vote args => args.candidateID = caller ∧ VoteRel a args
  | .append args => AppendRel a args
  | .snapshot args => SnapshotRel fresh a args ∧ HoldsPrefix R a args.snapshot

structure CallRel (call : Call D) : Prop where
  caller : call.caller ∈ c.members
  callee : call.callee ∈ c.members
  distinct : call.callee ≠ call.caller
  request : RequestRel R fresh a call.caller call.request

/-- A granted vote was cast, and what an append was acknowledged for is confirmed. -/
def ReplyRel (call : Call D) : Reply → Prop
  | .vote reply => ∀ args, call.request = .vote args → reply.voteGranted = true →
      a.voted call.callee args.term = some args.candidateID
  | .append reply => ∀ args, call.request = .append args → reply.success = true →
      args.prevLogIndex + args.entries.length ≤ a.confirmed call.callee args.term
  | .snapshot _ => True

def Below : Option (Snapshot D) → List LogEntry → Prop
  | none, l => l = []
  | some snap, l => R.data l snap.data

def ObservationRel : Observation D → Prop
  | .applied _ _ e => Observed R a (.applied e)
  | .restored _ _ data => Observed R a (.restored data)
  | .elected n term snapshot log => a.winner term = some n ∧
      ∃ below, Below R snapshot below ∧ a.inherited term = below ++ log.entries
  | .committed _ term snapshot log commitIndex => fresh → ∃ cm ∈ a.commits, cm.term = term ∧
      cm.pos + 1 = commitIndex ∧ ∃ below, Below R snapshot below ∧
        (below ++ log.entries).take commitIndex = upTo a term cm.pos
  | .panicked _ reason => fresh → reason.refusal = false

end Messages

section Elections

def SameVote (x y : Call D) : Prop :=
  x.caller = y.caller ∧ x.callee = y.callee ∧
    ∃ args args', x.request = .vote args ∧ y.request = .vote args' ∧ args.term = args'.term

/-- Of the voters in `Q`, every request of the candidate has been answered. -/
def Answered (calls : List (Call D)) (answered : List ℕ) (n : NodeId) (term : ℕ)
    (Q : Finset NodeId) : Prop :=
  ∀ k call args, calls[k]? = some call → call.caller = n → call.request = .vote args →
    args.term = term → call.callee ∈ Q → k ∈ answered

variable {calls new : List (Call D)} {answered answered' : List ℕ} {n : NodeId} {term : ℕ}
  {Q : Finset NodeId}

theorem Answered.append (h : Answered calls answered n term Q) (hsub : answered ⊆ answered')
    (hnew : ∀ call ∈ new, call.caller = n → ∀ args, call.request ≠ .vote args) :
    Answered (calls ++ new) answered' n term Q := by
  intro k call args hk hcaller hreq hterm hQ
  by_cases hlt : k < calls.length
  · rw [List.getElem?_append_left hlt] at hk
    exact hsub (h k call args hk hcaller hreq hterm hQ)
  · rw [List.getElem?_append_right (not_lt.mp hlt)] at hk
    exact absurd hreq (hnew call (List.mem_of_getElem? hk) hcaller args)

/-- No two calls ask for the same vote, so answering one answers all. -/
theorem Answered.insert (h : Answered calls answered n term Q)
    (hone : calls.Pairwise fun x y => ¬SameVote x y) {k : ℕ} {call : Call D}
    (hk : calls[k]? = some call) (hcaller : call.caller = n) {args : RequestVoteArgs}
    (hreq : call.request = .vote args) (hterm : args.term = term) :
    Answered calls (k :: answered) n term (insert call.callee Q) := by
  intro k' call' args' hk' hcaller' hreq' hterm' hQ
  rcases Finset.mem_insert.mp hQ with heq | hQ
  · have hsame : k' = k := by
      rw [List.pairwise_iff_getElem] at hone
      obtain ⟨hl, rfl⟩ := List.getElem?_eq_some_iff.mp hk
      obtain ⟨hl', rfl⟩ := List.getElem?_eq_some_iff.mp hk'
      rcases Nat.lt_trichotomy k k' with hlt | rfl | hlt
      · exact absurd ⟨hcaller.trans hcaller'.symm, heq.symm, _, _, hreq, hreq',
          hterm.trans hterm'.symm⟩ (hone k k' hl hl' hlt)
      · rfl
      · exact absurd ⟨hcaller'.trans hcaller.symm, heq, _, _, hreq', hreq,
          hterm'.trans hterm.symm⟩ (hone k' k hl' hl hlt)
    rw [hsame]
    exact List.mem_cons_self
  · exact List.mem_cons_of_mem _ (h k' call' args' hk' hcaller' hreq' hterm' hQ)

end Elections

section Relation

variable {M : StateMachine σ D} (R : Represents M) (c : ValidCluster)
  (settings : NodeId → Config) (fresh : Prop)

structure HostRel (n : NodeId) (a : Abstract) (h : Host σ D) : Prop where
  alive : ∀ {p}, h.proc = some p → Alive R (nodeConfig c settings n) n a h.disk p
  dead : h.proc = none → Dead R (nodeConfig c settings n) n a h.disk

def TaskRel (t : Task) : Prop := t.node ∈ c.members ∧ t.peer ∈ c.members ∧ t.peer ≠ t.node

structure Sim (s : System σ D) (a : Abstract) : Prop where
  valid : Valid c a
  indexed : Indexed a
  unstale : fresh → ¬a.stale
  hosts : ∀ n ∈ c.members, HostRel R c settings n a (s.hosts n)
  strangers : ∀ {n}, n ∉ c.members → (s.hosts n).proc = none
  calls : ∀ call ∈ s.calls, CallRel R c fresh a call
  incarnations : ∀ call ∈ s.calls, call.incarnation ≤ (s.hosts call.caller).incarnation
  sent : ∀ call ∈ s.calls, ∀ args p, call.request = .snapshot args →
    (s.hosts call.caller).incarnation = call.incarnation →
    (s.hosts call.caller).proc = some p → args.lastIncludedIndex ≤ p.node.commitIndex
  one_vote : s.calls.Pairwise fun x y => ¬SameVote x y
  replies : ∀ k reply, (k, reply) ∈ s.replies → ∃ call, s.calls[k]? = some call ∧
    ReplyRel a call reply
  tasks : ∀ t ∈ s.tasks, TaskRel c t
  ballots : ∀ n p, (s.hosts n).proc = some p → p.node.state = .candidate →
    ∃ Q, Ballot c a n p.node Q ∧ Answered s.calls s.answered n p.node.currentTerm Q
  trace : ∀ o ∈ s.trace, ObservationRel R fresh a o

end Relation

section Growth

variable {M : StateMachine σ D} {R : Represents M} {c : ValidCluster}
  {settings : NodeId → Config} {fresh : Prop} {n : NodeId} {a a' : Abstract}

theorem RequestRel.mono {caller : NodeId} {request : Request D}
    (h : RequestRel R fresh a caller request) (hg : Grows a a') :
    RequestRel R fresh a' caller request := by
  cases request with
  | vote args => exact ⟨h.1, h.2.mono hg⟩
  | append args => exact AppendRel.mono h hg
  | snapshot args => exact ⟨h.1.mono hg, h.2.mono hg h.1.index_le⟩

theorem CallRel.mono {call : Call D} (h : CallRel R c fresh a call) (hg : Grows a a') :
    CallRel R c fresh a' call :=
  ⟨h.caller, h.callee, h.distinct, h.request.mono hg⟩

theorem ReplyRel.mono {call : Call D} {reply : Reply} (h : ReplyRel a call reply)
    (hg : Grows a a') : ReplyRel a' call reply := by
  cases reply with
  | vote reply => exact fun args hreq hgr => hg.voted (h args hreq hgr)
  | append reply => exact fun args hreq hs => (h args hreq hs).trans (hg.confirmed _ _)
  | snapshot reply => trivial

theorem upTo_of_grows (hi : Valid c a) (hg : Grows a a') {cm : Commit NodeId}
    (hcm : cm ∈ a.commits) : upTo a' cm.term cm.pos = upTo a cm.term cm.pos := by
  obtain ⟨e, he, _⟩ := (Invariant.chosen hi).own hcm
  exact take_of_isPrefix (hg.leaderLog cm.term) (lt_of_getElem? he)

theorem Observed.mono {out : Output D} (h : Observed R a out) (hg : Grows a a') :
    Observed R a' out := by
  cases out with
  | applied e =>
    obtain ⟨i, hi, he⟩ := h
    exact ⟨i, hi, getElem?_of_isPrefix hg.chosen he⟩
  | restored data =>
    obtain ⟨i, hi, hd⟩ := h
    exact ⟨i, hi.trans hg.chosen.length_le, by rwa [take_of_isPrefix hg.chosen hi]⟩
  | _ => trivial

theorem ObservationRel.mono {o : Observation D} (h : ObservationRel R fresh a o)
    (hi : Valid c a) (hg : Grows a a') : ObservationRel R fresh a' o := by
  cases o with
  | applied n inc e | restored n inc data =>
    rw [ObservationRel] at h ⊢
    exact h.mono hg
  | elected n term snapshot log =>
    obtain ⟨hw, below, hb, hin⟩ := h
    exact ⟨hg.winner hw, below, hb, (hg.inherited (by simp [hw])).trans hin⟩
  | committed n term snapshot log ci =>
    intro hf
    obtain ⟨cm, hcm, rfl, hpos, below, hb, htake⟩ := h hf
    refine ⟨cm, hg.commits hcm, rfl, hpos, below, hb, ?_⟩
    rw [htake, upTo_of_grows hi hg hcm]
  | panicked n reason => exact h

theorem Ballot.mono {rn : RaftNode D} {Q : Finset NodeId} (h : Ballot c a n rn Q)
    (hg : Grows a a') : Ballot c a' n rn Q :=
  ⟨h.members, h.counted, fun w hw => hg.voted (h.votes w hw)⟩

theorem HostRel.other {h : Host σ D} (hh : HostRel R c settings n a h) (hi : Valid c a)
    (hg : Grows a a') (hu : Untouched n a a') : HostRel R c settings n a' h :=
  ⟨fun hp => (hh.alive hp).other hi hg hu, fun hp => (hh.dead hp).other hi hg hu⟩

theorem Alive.configured {disk : Disk D} {p : Proc σ D}
    (h : Alive R (nodeConfig c settings n) n a disk p) (hn : n ∈ c.members) :
    Configured c n p.node :=
  ⟨hn, congrArg Config.id h.live.config, congrArg Config.peers h.live.config⟩

theorem Alive.below {cfg : Config} {disk : Disk D} {p : Proc σ D}
    (h : Alive R cfg n a disk p) : Below R disk.snapshot (a.chosen.take p.node.log.base) := by
  cases hs : disk.snapshot with
  | none =>
    have hzero : p.node.log.base = 0 := mirrors_nothing h.live.mirrors hs
    simp [Below, hzero]
  | some snap =>
    have := h.saved hs
    rw [HoldsPrefix, (mirrors_index h.live.mirrors hs).1] at this
    exact this

theorem Alive.observed_leader {cfg : Config} {disk : Disk D} {p : Proc σ D} {rn : RaftNode D}
    (h : Alive R cfg n a disk p) (hi : Valid c a) (he : Effects fresh a n rn p.node) :
    ∀ o ∈ observeLeader n disk rn p.node, ObservationRel R fresh a o := by
  intro o ho
  rw [observeLeader] at ho
  split at ho
  · cases ho
  rename_i hlead
  have hlead : p.node.state = .leader := not_not.mp hlead
  rcases List.mem_append.mp ho with ho | ho
  · split at ho
    · rename_i hnew
      rw [List.mem_singleton.mp ho]
      obtain ⟨hwin, hin⟩ := he.elected hnew hlead
      exact ⟨hwin, _, h.below, hin⟩
    · cases ho
  · split at ho
    · rename_i hlt
      rw [List.mem_singleton.mp ho]
      intro hf
      obtain ⟨cm, hcm, hterm, hpos⟩ := he.committed hlead hlt hf
      refine ⟨cm, hcm, hterm, hpos, _, h.below, ?_⟩
      have hrole : a.role n = .leader := by
        rw [h.node.role, hlead]
        rfl
      have hlog := ((Invariant.roles hi n).leader hrole).2.1
      rw [← h.node.log, hlog, h.node.term, upTo, hpos]
    · cases ho

end Growth

end Raft
