import RaftDB.KvHistory
import RaftDB.KvJson
import RaftDB.KvRpc

/-!
# What clients see

Every response can be read off one log: an acknowledged write is an entry of it, and a read
returns what a prefix of it leads to. Writes are ordered as they were called, whichever nodes
they go to. A read only knows what its own process has applied, so it is ordered behind the
calls that the same process has answered, and behind no others.
-/
namespace Raft

open ClusterConfig TransitionSystem

variable {σ D : Type} {M : StateMachine σ D} {c : ValidCluster} {settings : NodeId → Config}
  {s t : System σ D} {n : NodeId} {p : Proc σ D}

theorem Proc.lastApplied_le (h : ApplierOk p.node p.phase) : p.node.lastApplied ≤ p.progress := by
  have hreach := h.applied_le
  cases hph : p.phase <;> simp only [Proc.progress, hph, Phase.progress, Phase.reach] at hreach ⊢ <;>
    omega

theorem leader_hints_itself (hrun : Runs (System.step M c settings) Always System.init s)
    (hp : (s.hosts n).proc = some p) (hlead : p.node.state = .leader) :
    p.node.leaderID = n := by
  induction hrun generalizing p with
  | refl => cases hp
  | tail hrun _ hst ih =>
    cases proc_step hst hp with
    | same hsame =>
      rw [hsame] at hp
      exact ih hp hlead
    | boot rn hrn heq =>
      subst heq
      rw [show (Proc.boot M rn).node.state = rn.state from rfl, newNode_follower hrn] at hlead
      cases hlead
    | moved q i o out hin hq ho hx =>
      cases (Proc.handled ho hx).hint with
      | kept _ hleader hstate => exact hleader.trans (ih hq (hstate hlead))
      | forgotten _ hstate => exact absurd hlead hstate
      | won _ _ hleader =>
        obtain ⟨a, ha⟩ := exists_account hrun
        obtain ⟨_, _, hconf⟩ := ha.related (ha.member hq) hq
        exact hleader.trans hconf.named
      | heard _ _ _ _ _ hstate => exact absurd hlead hstate

theorem Agreed.isPrefix {a : Abstract} (h : Agreed s a) {l : List LogEntry}
    (hl : s.CommittedPrefix l) : l <+: a.chosen := by
  rw [List.prefix_iff_getElem?]
  intro i hi
  obtain ⟨hindex, hcommitted⟩ := hl i _ (List.getElem?_eq_getElem hi)
  obtain ⟨k, hk, he⟩ := h _ hcommitted
  rwa [show k = i by omega] at he

end Raft

namespace Kv

open Raft ClusterConfig TransitionSystem Function LogPrefix

variable {json : Json} {c : ValidCluster} {settings : NodeId → Config} {s t : Service}

abbrev KvRuns (json : Json) (c : ValidCluster) (settings : NodeId → Config) :
    KvSystem → KvSystem → Prop := Runs (KvSystem.step json c settings) Always

abbrev ServiceRuns (json : Json) (c : ValidCluster) (settings : NodeId → Config) :
    Service → Service → Prop := Runs (Service.step json c settings) Always

abbrev KvProc := Proc (Store × List LogEntry) (List UInt8 × List LogEntry)

section Steps

inductive Begins (p : KvProc) : Rpc → RpcStage → Prop where
  | redirects (key : String) : Begins p (.get key) .redirecting
  | reads (key : String) : p.node.state = .leader → Begins p (.get key) (.reading key)
  | reports : Begins p .status (.counting p.node.status)

inductive Continues (s : Service) (p : KvProc) (call : RpcCall) : RpcCall → Prop where
  | returns (k : ℕ) (q : Proposal) (answer : Answer) : call.stage = .proposing k →
      s.kv.proposals[k]? = some q → q.stage = .returned answer →
      Continues s p call { call with stage := Service.concluded answer }
  | redirects (redirect : Redirect) : call.stage = .redirecting →
      Continues s p call { call with stage := .answered (.redirected redirect) }
  | reads (key : String) : call.stage = .reading key → Continues s p call
      { call with
        stage := .answered (.value (p.machine.1.get key).1 (p.machine.1.get key).2)
        seen := p.machine.2 }
  | reports (st : Status) : call.stage = .counting st → Continues s p call
      { call with
        stage := .answered (.status (.of st p.machine.1.len))
        seen := p.machine.2 }

/-- What an event of the service does, by what it finds. -/
inductive Served (json : Json) (c : ValidCluster) (settings : NodeId → Config) (s : Service) :
    Service → Prop where
  | ran (kv : KvSystem) (e : KvEvent) : s.kv.step json c settings e = some kv →
      kv.proposals.length = s.kv.proposals.length → Served json c settings s { s with kv := kv }
  | wrote (n : NodeId) (rpc : Rpc) (kv : KvSystem) (q : Proposal) :
      s.kv.step json c settings (.propose n q.cmd) = some kv → rpc.command = some q.cmd →
      kv.proposals = s.kv.proposals ++ [q] → q.node = n →
      q.incarnation = (s.kv.raft.hosts n).incarnation →
      Served json c settings s
        ⟨kv, s.calls ++ [⟨n, (s.kv.raft.hosts n).incarnation, rpc, some s.kv.proposals.length,
          .proposing s.kv.proposals.length, []⟩]⟩
  | began (n : NodeId) (p : KvProc) (rpc : Rpc) (stage : RpcStage) :
      (s.kv.raft.hosts n).proc = some p → Begins p rpc stage →
      Served json c settings s (s.begin n rpc stage)
  | advanced (j : ℕ) (p : KvProc) (call call' : RpcCall) : s.calls[j]? = some call →
      (s.kv.raft.hosts call.node).incarnation = call.incarnation →
      (s.kv.raft.hosts call.node).proc = some p → Continues s p call call' →
      Served json c settings s { s with calls := s.calls.set j call' }

theorem continues_of_advance {cl : Cluster} {p : KvProc} {call call' : RpcCall}
    (h : s.advance cl p call = some call') : Continues s p call call' := by
  rw [Service.advance] at h
  cases hstage : call.stage with
  | proposing k =>
    simp only [hstage] at h
    split at h
    · cases h
    rename_i q hq
    split at h
    · rename_i answer hret
      cases h
      exact .returns k q answer hstage hq hret
    · cases h
  | redirecting =>
    simp only [hstage] at h
    cases h
    exact .redirects _ hstage
  | reading key =>
    simp only [hstage] at h
    cases h
    exact .reads key hstage
  | counting st =>
    simp only [hstage] at h
    cases h
    exact .reports st hstage
  | answered r =>
    simp only [hstage] at h
    cases h

theorem background_keeps {kv kv' : KvSystem} {e : KvEvent} (hb : e.background = true)
    (h : kv.step json c settings e = some kv') :
    kv'.proposals.length = kv.proposals.length := by
  cases moved_of_step h with
  | refused | appended | rejected | failed => cases hb
  | raft | boot | applier | applied | missed | taken => rfl
  | sent n k answer t _ hs => exact (sendTo_keeps hs).2
  | registered k p index term t hk _ _ hst hreg => exact (register_keeps hk hst hreg).2
  | received | expired | gaveUp => exact List.length_set

theorem served_of_write {n : NodeId} {rpc : Rpc} {cmd : Command} (hcmd : rpc.command = some cmd)
    (h : s.write json n rpc cmd = some t) : Served json c settings s t := by
  rw [Service.write] at h
  obtain ⟨kv, hkv, rfl⟩ := Option.map_eq_some_iff.mp h
  have hstep : s.kv.step json c settings (.propose n cmd) = some kv := hkv
  have hmoved := moved_of_step hstep
  dsimp only
  split
  · rename_i hlt
    cases hmoved with
    | refused _ _ err => exact .wrote n rpc _ _ hstep hcmd rfl rfl rfl
    | appended _ _ data raft index term _ _ => exact .wrote n rpc _ _ hstep hcmd rfl rfl rfl
    | rejected _ _ data raft _ => exact .wrote n rpc _ _ hstep hcmd rfl rfl rfl
    | failed => exact absurd hlt (lt_irrefl _)
  · rename_i hle
    refine .ran kv _ hstep ?_
    have hlen := hmoved.keeps.1.length_le
    omega

theorem served_of_step {e : ServiceEvent} (h : s.step json c settings e = some t) :
    Served json c settings s t := by
  cases e with
  | kv e =>
    rw [Service.step] at h
    split at h
    · rename_i hb
      obtain ⟨kv, hkv, rfl⟩ := Option.map_eq_some_iff.mp h
      exact .ran kv e hkv (background_keeps hb hkv)
    · cases h
  | invoke n rpc =>
    rw [Service.step, Service.invoke] at h
    split at h
    · cases h
    rename_i p hp
    cases rpc with
    | put key value => exact served_of_write rfl h
    | delete key => exact served_of_write rfl h
    | get key =>
      dsimp only at h
      split at h
      · cases h
        exact .began n p _ _ hp (.redirects key)
      · rename_i hlead
        cases h
        exact .began n p _ _ hp (.reads key (not_not.mp hlead))
    | status =>
      cases h
      exact .began n p _ _ hp .reports
  | proceed j =>
    rw [Service.step, Service.proceed] at h
    split at h
    · cases h
    rename_i call hcall
    dsimp only at h
    split at h
    · cases h
    rename_i hinc
    split at h
    · cases h
    rename_i p hp
    obtain ⟨call', hadv, rfl⟩ := Option.map_eq_some_iff.mp h
    exact .advanced j p call call' hcall (not_not.mp hinc) hp (continues_of_advance hadv)

theorem Served.kvRuns (h : Served json c settings s t) : KvRuns json c settings s.kv t.kv := by
  cases h with
  | ran kv e hst _ => exact Runs.refl.tail trivial hst
  | wrote n rpc kv q hst => exact Runs.refl.tail trivial hst
  | began | advanced => exact .refl

theorem kvRuns_of_runs (h : ServiceRuns json c settings s t) : KvRuns json c settings s.kv t.kv := by
  induction h with
  | refl => exact .refl
  | tail _ _ hst ih => exact ih.trans (served_of_step hst).kvRuns

end Steps

section Calls

structure RpcCall.Keeps (call call' : RpcCall) : Prop where
  node : call'.node = call.node
  incarnation : call'.incarnation = call.incarnation
  rpc : call'.rpc = call.rpc
  proposal : call'.proposal = call.proposal
  answered : ∀ {response}, call.stage = .answered response → call' = call

theorem RpcCall.Keeps.refl (call : RpcCall) : call.Keeps call := ⟨rfl, rfl, rfl, rfl, fun _ => rfl⟩

theorem RpcCall.Keeps.trans {call call' call'' : RpcCall} (h : call.Keeps call')
    (h' : call'.Keeps call'') : call.Keeps call'' where
  node := h'.node.trans h.node
  incarnation := h'.incarnation.trans h.incarnation
  rpc := h'.rpc.trans h.rpc
  proposal := h'.proposal.trans h.proposal
  answered hr := by
    have hsame := h.answered hr
    rw [h'.answered (hsame ▸ hr), hsame]

theorem Continues.keeps {p : KvProc} {call call' : RpcCall} (h : Continues s p call call') :
    call.Keeps call' := by
  cases h with
  | returns k q answer hst | redirects r hst | reads key hst | reports st hst =>
    refine ⟨rfl, rfl, rfl, rfl, fun hr => ?_⟩
    rw [hst] at hr
    cases hr

theorem Served.keeps (h : Served json c settings s t) {j : ℕ} {call : RpcCall}
    (hc : s.calls[j]? = some call) : ∃ call', t.calls[j]? = some call' ∧ call.Keeps call' := by
  cases h with
  | ran => exact ⟨call, hc, .refl call⟩
  | wrote | began =>
    exact ⟨call, (List.getElem?_append_left (lt_of_getElem? hc)).trans hc, .refl call⟩
  | advanced i p old new hi _ _ hadv =>
    by_cases hij : i = j
    · subst hij
      cases hi.symm.trans hc
      exact ⟨new, List.getElem?_set_self (lt_of_getElem? hc), hadv.keeps⟩
    · exact ⟨call, (List.getElem?_set_ne hij).trans hc, .refl call⟩

theorem calls_kept (h : ServiceRuns json c settings s t) {j : ℕ} {call : RpcCall}
    (hc : s.calls[j]? = some call) : ∃ call', t.calls[j]? = some call' ∧ call.Keeps call' := by
  induction h with
  | refl => exact ⟨call, hc, .refl call⟩
  | tail _ _ hst ih =>
    obtain ⟨call', hc', hk⟩ := ih
    obtain ⟨call'', hc'', hk'⟩ := (served_of_step hst).keeps hc'
    exact ⟨call'', hc'', hk.trans hk'⟩

end Calls

section Invariant

/-- What a status tells about the node it came from. -/
structure StatusOk (r : RaftSystem) (call : RpcCall) (st : Status) : Prop where
  own : st.id = call.node
  first : st.firstLogIndex ≤ st.commitIndex + 1
  applied : st.lastApplied ≤ st.commitIndex
  last : st.commitIndex ≤ st.lastLogIndex
  past : st.state ≠ .follower → r.Past call.node call.incarnation st.lastApplied
  leader : st.state = .leader → st.leaderID = st.id ∧ r.Elected st.id st.currentTerm

/-- What is known of a call, by how far it has got. -/
def StageOk (json : Json) (kv : KvSystem) (call : RpcCall) : RpcStage → Prop
  | .proposing k => call.proposal = some k
  | .reading key => call.rpc = .get key ∧ kv.raft.Past call.node call.incarnation 0
  | .counting st => StatusOk kv.raft call st
  | .answered .written => ∃ k q, call.proposal = some k ∧ kv.proposals[k]? = some q ∧
      q.stage = .returned .ok
  | .answered (.value v found) => ∃ key, call.rpc = .get key ∧
      (v, found) = (replay json call.seen).get key ∧ kv.raft.CommittedPrefix call.seen ∧
      kv.raft.Past call.node call.incarnation call.seen.length
  | .answered (.status status) => ∃ st keys, status = .of st keys ∧ StatusOk kv.raft call st ∧
      (st.state ≠ .follower → keys = (replay json call.seen).len ∧
        kv.raft.CommittedPrefix call.seen ∧ st.lastApplied ≤ call.seen.length)
  | _ => True

structure CallOk (json : Json) (kv : KvSystem) (call : RpcCall) : Prop where
  proposal : ∀ {k}, call.proposal = some k → ∃ q, kv.proposals[k]? = some q ∧
    q.node = call.node ∧ q.incarnation = call.incarnation ∧ call.rpc.command = some q.cmd
  stage : StageOk json kv call call.stage

structure ServiceOk (json : Json) (s : Service) : Prop where
  calls : ∀ call ∈ s.calls, CallOk json s.kv call
  made : ∀ k < s.kv.proposals.length, ∃ call ∈ s.calls, call.proposal = some k
  ordered : ∀ {i j : ℕ} {call call' k k'}, i < j → s.calls[i]? = some call →
    s.calls[j]? = some call' → call.proposal = some k → call'.proposal = some k' → k < k'

variable {kv kv' : KvSystem} {call : RpcCall} {st : Status}

theorem committedPrefix_mono {r r' : RaftSystem} {l : List LogEntry} (h : r.CommittedPrefix l)
    (htr : r.trace <+: r'.trace) : r'.CommittedPrefix l := by
  intro k e he
  obtain ⟨hindex, m, term, snap, log, ci, hob, hrest⟩ := h k e he
  exact ⟨hindex, m, term, snap, log, ci, htr.subset hob, hrest⟩

theorem StatusOk.onward {r r' : RaftSystem} (h : StatusOk r call st)
    (hr : RaftRuns json c settings System.init r) (hrun : RaftRuns json c settings r r') :
    StatusOk r' call st :=
  ⟨h.own, h.first, h.applied, h.last, fun hs => (h.past hs).runs hr hrun,
    fun hl => ⟨(h.leader hl).1, (h.leader hl).2.mono (runs_trace hrun)⟩⟩

theorem CallOk.onward (h : CallOk json kv call)
    (hr : RaftRuns json c settings System.init kv.raft) (hrun : KvRuns json c settings kv kv') :
    CallOk json kv' call := by
  have hkeeps := keeps_of_runs hrun
  have hraft := raftRuns_of_runs hrun
  refine ⟨?_, ?_⟩
  · intro k hk
    obtain ⟨q, hq, hn, hi, hcmd⟩ := h.proposal hk
    obtain ⟨q', hq', hsame⟩ := hkeeps k q hq
    exact ⟨q', hq', hsame.node.trans hn, hsame.incarnation.trans hi, hsame.cmd ▸ hcmd⟩
  · have hstage := h.stage
    cases hst : call.stage with
    | proposing k =>
      rw [hst] at hstage
      exact hstage
    | redirecting => trivial
    | reading key =>
      rw [hst] at hstage
      exact ⟨hstage.1, hstage.2.runs hr hraft⟩
    | counting st =>
      rw [hst] at hstage
      exact StatusOk.onward hstage hr hraft
    | answered response =>
      rw [hst] at hstage
      cases response with
      | written =>
        obtain ⟨k, q, hk, hq, hret⟩ := hstage
        obtain ⟨q', hq', hsame⟩ := hkeeps k q hq
        exact ⟨k, q', hk, hq', hsame.returned hret⟩
      | value v found =>
        obtain ⟨key, hrpc, hval, hseen, hpast⟩ := hstage
        exact ⟨key, hrpc, hval, committedPrefix_mono hseen (runs_trace hraft), hpast.runs hr hraft⟩
      | status status =>
        obtain ⟨st, keys, rfl, hok, hkeys⟩ := hstage
        refine ⟨st, keys, rfl, hok.onward hr hraft, fun hs => ?_⟩
        obtain ⟨hlen, hseen, hle⟩ := hkeys hs
        exact ⟨hlen, committedPrefix_mono hseen (runs_trace hraft), hle⟩
      | redirected | failed => trivial

theorem statusOk_of_proc {r : RaftSystem} (hr : RaftRuns json c settings System.init r)
    {n : NodeId} {p : KvProc} (hp : (r.hosts n).proc = some p) (hn : call.node = n)
    (hi : call.incarnation = (r.hosts n).incarnation) : StatusOk r call p.node.status := by
  subst hn
  obtain ⟨a, ha⟩ := exists_account hr
  obtain ⟨halive, _, hconf⟩ := ha.related (ha.member hp) hp
  have hwf := halive.live.wf
  have happ := halive.live.applier
  refine ⟨hconf.named, Nat.succ_le_succ hwf.base_le, happ.applied_le.trans happ.reach_le,
    hwf.commit_le, fun hs => ?_, fun hl => ⟨?_, ?_⟩⟩
  · rw [hi]
    refine Or.inr ⟨rfl, fun q hq => ?_⟩
    cases hp.symm.trans hq
    exact ⟨started_of_role hr hp hs, Proc.lastApplied_le happ⟩
  · exact (leader_hints_itself hr hp hl).trans hconf.named.symm
  · rw [show p.node.status.id = call.node from hconf.named]
    exact (hinted_of_runs hr).leading hp hl

theorem Begins.ok (hr : RaftRuns json c settings System.init kv.raft) {n : NodeId} {p : KvProc}
    {rpc : Rpc} {stage : RpcStage} (hp : (kv.raft.hosts n).proc = some p) (h : Begins p rpc stage) :
    CallOk json kv ⟨n, (kv.raft.hosts n).incarnation, rpc, none, stage, []⟩ := by
  refine ⟨by rintro _ ⟨⟩, ?_⟩
  cases h with
  | redirects key => trivial
  | reads key hlead =>
    refine ⟨rfl, Or.inr ⟨rfl, fun q hq => ?_⟩⟩
    cases hp.symm.trans hq
    exact ⟨started_of_role hr hp (by simp [hlead]), Nat.zero_le _⟩
  | reports => exact statusOk_of_proc hr hp rfl rfl

theorem concluded_ok {k : ℕ} {q : Proposal} {answer : Answer} (h : CallOk json kv call)
    (hst : call.stage = .proposing k) (hq : kv.proposals[k]? = some q)
    (hret : q.stage = .returned answer) :
    CallOk json kv { call with stage := Service.concluded answer } := by
  refine ⟨h.proposal, ?_⟩
  have hstage := h.stage
  rw [hst] at hstage
  cases answer with
  | ok => exact ⟨k, q, hstage, hq, hret⟩
  | notLeader | contextDone | refused => trivial

theorem Continues.ok (hjson : ∀ l, json.RoundTripsMap (replay json l).m)
    (hr : RaftRuns json c settings System.init s.kv.raft) {p : KvProc} {call' : RpcCall}
    (hi : (s.kv.raft.hosts call.node).incarnation = call.incarnation)
    (hp : (s.kv.raft.hosts call.node).proc = some p) (hok : CallOk json s.kv call)
    (h : Continues s p call call') : CallOk json s.kv call' := by
  have hstage := hok.stage
  cases h with
  | returns k q answer hst hq hret => exact concluded_ok hok hst hq hret
  | redirects r hst => exact ⟨hok.proposal, trivial⟩
  | reads key hst =>
    refine ⟨hok.proposal, ?_⟩
    rw [hst] at hstage
    obtain ⟨hrpc, hpast⟩ := hstage
    rw [← hi] at hpast
    have hstarted := (hpast.now hp).1
    obtain ⟨hstore, hlen, hcommitted⟩ := store_committed hjson hr hp hstarted
    refine ⟨key, hrpc, congrArg (Store.get · key) hstore, hcommitted, ?_⟩
    change s.kv.raft.Past call.node call.incarnation p.machine.2.length
    rw [hlen, ← hi]
    exact .of_proc hp hstarted
  | reports st hst =>
    refine ⟨hok.proposal, st, p.machine.1.len, rfl, ?_, fun hs => ?_⟩
    · rw [hst] at hstage
      exact ⟨hstage.own, hstage.first, hstage.applied, hstage.last, hstage.past, hstage.leader⟩
    · rw [hst] at hstage
      have hpast := StatusOk.past hstage hs
      rw [← hi] at hpast
      obtain ⟨hstarted, hle⟩ := hpast.now hp
      obtain ⟨hstore, hlen, hcommitted⟩ := store_committed hjson hr hp hstarted
      exact ⟨congrArg Store.len hstore, hcommitted, hle.trans_eq hlen.symm⟩

theorem ServiceOk.served (hjson : ∀ l, json.RoundTripsMap (replay json l).m)
    (h : ServiceOk json s) (hr : RaftRuns json c settings System.init s.kv.raft)
    (hs : Served json c settings s t) : ServiceOk json t := by
  have hcalls : ∀ call ∈ s.calls, CallOk json t.kv call := fun call hc =>
    (h.calls call hc).onward hr hs.kvRuns
  cases hs with
  | ran kv e hst hlen => exact ⟨hcalls, fun k hk => h.made k (hlen ▸ hk), h.ordered⟩
  | wrote n rpc kv q hst hcmd hps hn hi =>
    refine ⟨fun call hc => ?_, fun k hk => ?_, fun {i j x y k k'} hij hx hy hk hk' => ?_⟩
    · rcases List.mem_append.mp hc with hc | hc
      · exact hcalls call hc
      rw [List.mem_singleton.mp hc]
      refine ⟨?_, rfl⟩
      rintro _ ⟨⟩
      refine ⟨q, ?_, hn, hi, hcmd⟩
      rw [hps]
      exact List.getElem?_concat_length
    · rw [hps, List.length_append, List.length_singleton] at hk
      rcases Nat.lt_succ_iff_lt_or_eq.mp hk with hk | rfl
      · obtain ⟨call, hc, hprop⟩ := h.made k hk
        exact ⟨call, List.mem_append_left _ hc, hprop⟩
      · exact ⟨_, List.mem_append_right _ (List.mem_singleton_self _), rfl⟩
    · have hlen := lt_of_getElem? hy
      rw [List.length_append, List.length_singleton] at hlen
      rw [List.getElem?_append_left (by omega)] at hx
      rcases getElem?_concat hy with hy | ⟨_, rfl⟩
      · exact h.ordered hij hx hy hk hk'
      · cases hk'
        obtain ⟨q', hq', _⟩ := (h.calls x (List.mem_of_getElem? hx)).proposal hk
        exact lt_of_getElem? hq'
  | began n p rpc stage hp hbegins =>
    refine ⟨fun call hc => ?_, fun k hk => ?_, fun {i j x y k k'} hij hx hy hk hk' => ?_⟩
    · rcases List.mem_append.mp hc with hc | hc
      · exact hcalls call hc
      · rw [List.mem_singleton.mp hc]
        exact hbegins.ok hr hp
    · obtain ⟨call, hc, hprop⟩ := h.made k hk
      exact ⟨call, List.mem_append_left _ hc, hprop⟩
    · have hlen := lt_of_getElem? hy
      rw [Service.begin, List.length_append, List.length_singleton] at hlen
      rw [Service.begin, List.getElem?_append_left (by omega)] at hx
      rcases getElem?_concat hy with hy | ⟨_, rfl⟩
      · exact h.ordered hij hx hy hk hk'
      · cases hk'
  | advanced m p call call' hm hi hp hadv =>
    refine ⟨fun x hx => ?_, fun k hk => ?_, fun {i j x y k k'} hij hx hy hk hk' => ?_⟩
    · rcases List.mem_or_eq_of_mem_set hx with hx | rfl
      · exact hcalls x hx
      · exact hadv.ok hjson hr hi hp (h.calls call (List.mem_of_getElem? hm))
    · obtain ⟨x, hx, hprop⟩ := h.made k hk
      obtain ⟨i, hxi⟩ := List.getElem?_of_mem hx
      obtain ⟨x', hx', hkeeps⟩ := Served.keeps (.advanced m p call call' hm hi hp hadv :
        Served json c settings s _) hxi
      exact ⟨x', List.mem_of_getElem? hx', hkeeps.proposal.trans hprop⟩
    · have hold : ∀ {i : ℕ} {x : RpcCall}, (s.calls.set m call')[i]? = some x →
          ∃ x₀, s.calls[i]? = some x₀ ∧ x.proposal = x₀.proposal := by
        intro i x hx
        rcases getElem?_set_cases hx with ⟨rfl, rfl⟩ | ⟨_, hx⟩
        · exact ⟨call, hm, hadv.keeps.proposal⟩
        · exact ⟨x, hx, rfl⟩
      obtain ⟨x₀, hx₀, hxp⟩ := hold hx
      obtain ⟨y₀, hy₀, hyp⟩ := hold hy
      exact h.ordered hij hx₀ hy₀ (hxp.symm.trans hk) (hyp.symm.trans hk')

theorem ServiceOk.of_runs (hjson : ∀ l, json.RoundTripsMap (replay json l).m)
    (h : ServiceRuns json c settings Service.init s) : ServiceOk json s := by
  induction h with
  | refl =>
    refine ⟨?_, ?_, ?_⟩
    · intro call hc
      cases hc
    · intro k hk
      cases hk
    · intro _ _ _ _ _ _ _ hc
      cases hc
  | tail hu _ hst ih =>
    exact ih.served hjson (raftRuns_of_runs (kvRuns_of_runs hu)) (served_of_step hst)

end Invariant

section Positions

/-- The entry of the log that a response stands at: the one that was written, or the last one
that was in the store. -/
def Service.position (s : Service) (call : RpcCall) : Option ℕ :=
  match call.stage with
  | .answered .written =>
    ((call.proposal.bind (s.kv.proposals[·]?)).bind Proposal.appended).map Prod.fst
  | .answered (.value _ _) => some call.seen.length
  | _ => none

def Service.Appends (json : Json) (s : Service) (call : RpcCall) (e : LogEntry) : Prop :=
  ∃ k q cmd, call.proposal = some k ∧ s.kv.proposals[k]? = some q ∧
    q.appended = some (e.index, e.term) ∧ call.rpc.command = some cmd ∧
    cmd.encode json = .ok e.command

variable {call : RpcCall} {e : LogEntry} {k : ℕ}

theorem written_applied (hs : ServiceRuns json c settings Service.init s) (hok : ServiceOk json s)
    (hc : call ∈ s.calls) (hw : call.stage = .answered .written) :
    ∃ e, s.Appends json call e ∧ s.position call = some e.index ∧
      Observation.applied call.node call.incarnation e ∈ s.kv.raft.trace := by
  have hcall := hok.calls call hc
  have hstage := hcall.stage
  rw [hw] at hstage
  obtain ⟨k, q, hk, hq, hret⟩ := hstage
  obtain ⟨q', hq', hn, hi, hcmd⟩ := hcall.proposal hk
  cases hq.symm.trans hq'
  have hsound : Sound json c settings False s.kv :=
    .of_runs (fun _ => False.elim) (kvRuns_of_runs hs)
  have hqok := hsound.proposals q (List.mem_of_getElem? hq)
  obtain ⟨e, he, happ⟩ := hqok.returned hret
  obtain ⟨henc, r₀, m, p, h₀, hr, hp, hmem⟩ := hqok.held happ
  have heq := held_applied_eq h₀ hr hp hmem he rfl rfl
  refine ⟨e, ⟨k, q, q.cmd, hk, hq, happ, hcmd, ?_⟩, ?_, ?_⟩
  · rw [heq]
    exact henc
  · rw [Service.position, hw]
    simp only [hk, Option.bind_some, hq, happ, Option.map_some]
  · rw [← hn, ← hi]
    exact he

theorem position_cases (h : s.position call = some k) :
    call.stage = .answered .written ∨
      ∃ v found, call.stage = .answered (.value v found) ∧ call.seen.length = k := by
  rw [Service.position] at h
  split at h
  · rename_i hst
    exact Or.inl hst
  · rename_i v found hst
    exact Or.inr ⟨v, found, hst, Option.some.inj h⟩
  · cases h

theorem read_seen (hok : ServiceOk json s) (hc : call ∈ s.calls) {v : String} {found : Bool}
    (hst : call.stage = .answered (.value v found)) :
    ∃ key, call.rpc = .get key ∧ (v, found) = (replay json call.seen).get key ∧
      s.kv.raft.CommittedPrefix call.seen ∧
      s.kv.raft.Past call.node call.incarnation call.seen.length := by
  have hstage := (hok.calls call hc).stage
  rwa [hst] at hstage

/-- The process that gave a response has applied all entries up to its position. -/
theorem position_past (hs : ServiceRuns json c settings Service.init s) (hok : ServiceOk json s)
    (hc : call ∈ s.calls) (hpos : s.position call = some k) :
    s.kv.raft.Past call.node call.incarnation k := by
  rcases position_cases hpos with hw | ⟨v, found, hst, rfl⟩
  · obtain ⟨e, _, hpos', happ⟩ := written_applied hs hok hc hw
    cases hpos.symm.trans hpos'
    exact past_of_applied (raftRuns_of_runs (kvRuns_of_runs hs)) happ
  · obtain ⟨_, _, _, _, hpast⟩ := read_seen hok hc hst
    exact hpast

theorem position_chosen (hs : ServiceRuns json c settings Service.init s) (hok : ServiceOk json s)
    {a : Abstract} (ha : Accounts (stateMachine json).audited c settings s.kv.raft a)
    (hagreed : Agreed s.kv.raft a) (hc : call ∈ s.calls) (hpos : s.position call = some k) :
    k ≤ a.chosen.length := by
  rcases position_cases hpos with hw | ⟨v, found, hst, rfl⟩
  · obtain ⟨e, _, hpos', happ⟩ := written_applied hs hok hc hw
    cases hpos.symm.trans hpos'
    obtain ⟨i, hi, he⟩ := ha.applied_chosen happ
    rw [hi]
    exact lt_of_getElem? he
  · obtain ⟨_, _, _, hcommitted, _⟩ := read_seen hok hc hst
    exact (hagreed.isPrefix hcommitted).length_le

theorem late_proposal (hst : ServiceRuns json c settings s t) {j : ℕ} (hj : s.calls.length ≤ j)
    (hc : t.calls[j]? = some call) (hk : call.proposal = some k) : s.kv.proposals.length ≤ k := by
  induction hst generalizing call with
  | refl => exact absurd (lt_of_getElem? hc) (not_lt.mpr hj)
  | @tail u v ev hu _ hstep ih =>
    have hlen := (keeps_of_runs (kvRuns_of_runs hu)).length_le
    cases served_of_step hstep with
    | ran => exact ih hc hk
    | wrote n rpc kv q =>
      rcases getElem?_concat hc with hc | ⟨_, rfl⟩
      · exact ih hc hk
      · cases hk
        exact hlen
    | began n p rpc stage =>
      rcases getElem?_concat hc with hc | ⟨_, rfl⟩
      · exact ih hc hk
      · cases hk
    | advanced m p old new hm _ _ hadv =>
      rcases getElem?_set_cases hc with ⟨rfl, rfl⟩ | ⟨_, hc⟩
      · exact ih hm (hadv.keeps.proposal.symm.trans hk)
      · exact ih hc hk

/-- What a later call appends is applied behind everything that had been chosen. -/
theorem late_append {a : Abstract}
    (ha : Accounts (stateMachine json).audited c settings s.kv.raft a)
    (hst : ServiceRuns json c settings s t) {j : ℕ} (hj : s.calls.length ≤ j)
    (hc : t.calls[j]? = some call) (he : t.Appends json call e) {n : NodeId} {inc : ℕ}
    (happ : Observation.applied n inc e ∈ t.kv.raft.trace) : a.chosen.length < e.index := by
  have hlater := kvRuns_of_runs hst
  obtain ⟨a', hg, ha'⟩ := exists_later_account ha (raftRuns_of_runs hlater)
  obtain ⟨i, hi, hchosen⟩ := ha'.applied_chosen happ
  obtain ⟨k', q, _, hk', hq, hqapp, _⟩ := he
  have hnew := assigned_after ha hlater (late_proposal hst hj hc hk') hq hqapp
  have hbeyond := chosen_beyond ha.valid hg hchosen (by omega)
  omega

/-- Calls that append the same entry are the same call. -/
theorem appends_once (hs : ServiceRuns json c settings Service.init s) (hok : ServiceOk json s)
    {j j' : ℕ} {call' : RpcCall} (hj : s.calls[j]? = some call) (hj' : s.calls[j']? = some call')
    (he : s.Appends json call e) (he' : s.Appends json call' e) : j' = j := by
  obtain ⟨k, q, _, hk, hq, happ, _⟩ := he
  obtain ⟨k', q', _, hk', hq', happ', _⟩ := he'
  have hkv := kvRuns_of_runs hs
  rcases lt_trichotomy j' j with hlt | heq | hlt
  · exact absurd happ (assigned_once hkv (hok.ordered hlt hj' hj hk' hk) hq' hq happ')
  · exact heq
  · exact absurd happ' (assigned_once hkv (hok.ordered hlt hj hj' hk hk') hq hq' happ)

theorem plainJson_roundTripsMap (l : List LogEntry) :
    plainJson.RoundTripsMap (replay plainJson l).m := goJson_roundTripsMap _

abbrev serviceExec (s : Service) : List ServiceEvent → Option Service :=
  exec (Service.step plainJson trio noSettings) (fun _ _ => true) s

theorem runs_of_serviceExec {s t : Service} {es : List ServiceEvent}
    (h : serviceExec s es = some t) : ServiceRuns plainJson trio noSettings s t :=
  runs_of_exec (fun _ _ _ => trivial) es h

def trioOpens : List ServiceEvent :=
  trioStarts.map .kv ++ ([.kv (.raft (.act "n1" .electionTimeout)), .kv (.raft (.deliver 0)),
    .kv (.raft (.receive 0)), .invoke "n1" (.put "k" "1"), .kv (.register 0),
    .kv (.raft (.act "n1" (.replicate 1))), .kv (.raft (.deliver 2)), .kv (.raft (.receive 1)),
    .kv (.applier "n1"), .kv (.applier "n1"), .kv (.take "n1"), .kv (.send "n1"), .kv (.receive 0),
    .proceed 0, .invoke "n1" (.get "k"), .proceed 1] : List ServiceEvent)

def trioContinues : List ServiceEvent :=
  [.invoke "n1" (.put "k" "2"), .kv (.register 1), .kv (.raft (.act "n1" (.replicate 1))),
    .kv (.raft (.deliver 4)), .kv (.raft (.receive 2)), .kv (.applier "n1"), .kv (.applier "n1"),
    .kv (.applier "n1"), .kv (.take "n1"), .kv (.send "n1"), .kv (.receive 1), .proceed 2,
    .invoke "n1" (.get "k"), .proceed 3, .invoke "n1" .status, .proceed 4]

/-- All responses follow one log, the one that the nodes apply. An acknowledged write is an entry
of it with the command of the call, no two calls share an entry, and a read returns what the
entries up to some point lead to. -/
theorem responses_follow_one_log (json : Json)
    (hjson : ∀ l, json.RoundTripsMap (replay json l).m) (c : ValidCluster)
    (settings : NodeId → Config) {s : Service}
    (hs : ServiceRuns json c settings Service.init s) :
    ∃ log : List LogEntry,
      (∀ n inc e, Observation.applied n inc e ∈ s.kv.raft.trace →
        ∃ i, e.index = i + 1 ∧ log[i]? = some e) ∧
      (∀ call ∈ s.calls, call.stage = .answered .written →
        ∃ i e, log[i]? = some e ∧ s.position call = some (i + 1) ∧ s.Appends json call e) ∧
      (∀ (j j' : ℕ) call call', j ≠ j' → s.calls[j]? = some call → s.calls[j']? = some call' →
        call.stage = .answered .written → call'.stage = .answered .written →
        s.position call ≠ s.position call') ∧
      ∀ call ∈ s.calls, ∀ v found, call.stage = .answered (.value v found) →
        ∃ key, call.rpc = .get key ∧ call.seen <+: log ∧
          (v, found) = (replay json call.seen).get key := by
  have hok := ServiceOk.of_runs hjson hs
  have hkv := kvRuns_of_runs hs
  have hr := raftRuns_of_runs hkv
  obtain ⟨a, ha, hagreed⟩ := exists_agreed_account (Represents.nothing _) hr
  refine ⟨a.chosen, fun n inc e he => ha.applied_chosen he, ?_, ?_, ?_⟩
  · intro call hc hw
    obtain ⟨e, happends, hpos, happ⟩ := written_applied hs hok hc hw
    obtain ⟨i, hi, he⟩ := ha.applied_chosen happ
    exact ⟨i, e, he, hpos.trans (congrArg some hi), happends⟩
  · intro j j' call call' hjj hc hc' hw hw' heq
    obtain ⟨e, happends, hpos, happ⟩ := written_applied hs hok (List.mem_of_getElem? hc) hw
    obtain ⟨e', happends', hpos', happ'⟩ := written_applied hs hok (List.mem_of_getElem? hc') hw'
    have hindex : e'.index = e.index := by
      rw [hpos, hpos'] at heq
      exact (Option.some.inj heq).symm
    rw [applied_agree hr happ happ' hindex] at happends'
    exact hjj (appends_once hs hok hc hc' happends happends').symm
  · intro call hc v found hst
    obtain ⟨key, hrpc, hval, hcommitted, _⟩ := read_seen hok hc hst
    exact ⟨key, hrpc, hagreed.isPrefix hcommitted, hval⟩

theorem responses_follow_one_log_trio :
    ∃ s put get, serviceExec Service.init trioOpens = some s ∧ s.calls[0]? = some put ∧
      s.calls[1]? = some get ∧ put.stage = .answered .written ∧
      get.stage = .answered (.value "1" true) ∧
      ∃ log : List LogEntry,
        (∃ i e, log[i]? = some e ∧ s.position put = some (i + 1) ∧ s.Appends plainJson put e) ∧
        get.seen <+: log ∧ ("1", true) = (replay plainJson get.seen).get "k" := by
  have hrun : ((serviceExec Service.init trioOpens).bind fun s => s.calls[0]?.bind fun put =>
      s.calls[1]?.map fun get => decide (put.stage = .answered .written ∧
        get.stage = .answered (.value "1" true) ∧ get.rpc = .get "k")) = some true := by
    decide +kernel
  obtain ⟨s, hs, hrest⟩ := Option.bind_eq_some_iff.mp hrun
  obtain ⟨put, hput, hrest⟩ := Option.bind_eq_some_iff.mp hrest
  obtain ⟨get, hget, hfacts⟩ := Option.map_eq_some_iff.mp hrest
  obtain ⟨hwritten, hread, hrpc⟩ := of_decide_eq_true hfacts
  obtain ⟨log, _, hwrites, _, hreads⟩ := responses_follow_one_log plainJson plainJson_roundTripsMap
    trio noSettings (runs_of_serviceExec hs)
  obtain ⟨key, hkey, hseen, hvalue⟩ := hreads get (List.mem_of_getElem? hget) _ _ hread
  cases hrpc.symm.trans hkey
  exact ⟨s, put, get, hs, hput, hget, hwritten, hread, log,
    hwrites put (List.mem_of_getElem? hput) hwritten, hseen, hvalue⟩

/-- Writes follow real time: a command that is called after a response was given, by any client on
any node, is only ever applied behind everything that the response stood on. -/
theorem writes_follow_responses (json : Json)
    (hjson : ∀ l, json.RoundTripsMap (replay json l).m) (c : ValidCluster)
    (settings : NodeId → Config) {s t : Service}
    (hs : ServiceRuns json c settings Service.init s) (hst : ServiceRuns json c settings s t)
    {call : RpcCall} (hc : call ∈ s.calls) {k : ℕ} (hpos : s.position call = some k)
    {j : ℕ} {call' : RpcCall} (hj : s.calls.length ≤ j) (hc' : t.calls[j]? = some call')
    {e : LogEntry} (he : t.Appends json call' e) {n : NodeId} {inc : ℕ}
    (happ : Observation.applied n inc e ∈ t.kv.raft.trace) : k < e.index := by
  have hok := ServiceOk.of_runs hjson hs
  obtain ⟨a, ha, hagreed⟩ :=
    exists_agreed_account (Represents.nothing _) (raftRuns_of_runs (kvRuns_of_runs hs))
  exact (position_chosen hs hok ha hagreed hc hpos).trans_lt (late_append ha hst hj hc' he happ)

theorem writes_follow_responses_trio :
    ∃ s t first second e, serviceExec Service.init trioOpens = some s ∧
      serviceExec s trioContinues = some t ∧ s.calls[0]? = some first ∧
      s.position first = some 1 ∧ t.calls[2]? = some second ∧ t.Appends plainJson second e ∧
      Observation.applied "n1" 1 e ∈ t.kv.raft.trace ∧ 1 < e.index := by
  have hrun : ((serviceExec Service.init trioOpens).bind fun s =>
      (serviceExec s trioContinues).bind fun t => s.calls[0]?.bind fun first =>
      t.calls[2]?.bind fun second => t.kv.proposals[1]?.map fun q =>
        decide (s.position first = some 1 ∧ s.calls.length ≤ 2 ∧ second.proposal = some 1 ∧
          q.appended = some (2, 1) ∧ second.rpc = .put "k" "2" ∧
          Observation.applied "n1" 1 ⟨1, 2, plainJson.marshalCommand ⟨.put, "k", "2"⟩⟩ ∈
            t.kv.raft.trace)) = some true := by
    decide +kernel
  obtain ⟨s, hs, hrest⟩ := Option.bind_eq_some_iff.mp hrun
  obtain ⟨t, ht, hrest⟩ := Option.bind_eq_some_iff.mp hrest
  obtain ⟨first, hfirst, hrest⟩ := Option.bind_eq_some_iff.mp hrest
  obtain ⟨second, hsecond, hrest⟩ := Option.bind_eq_some_iff.mp hrest
  obtain ⟨q, hq, hfacts⟩ := Option.map_eq_some_iff.mp hrest
  obtain ⟨hpos, hlen, hk, happended, hrpc, happ⟩ := of_decide_eq_true hfacts
  have hcommand : second.rpc.command = some ⟨.put, "k", "2"⟩ := by rw [hrpc]; rfl
  have happends : t.Appends plainJson second ⟨1, 2, plainJson.marshalCommand ⟨.put, "k", "2"⟩⟩ :=
    ⟨1, q, ⟨.put, "k", "2"⟩, hk, hq, happended, hcommand, rfl⟩
  exact ⟨s, t, first, second, _, hs, ht, hfirst, hpos, hsecond, happends, happ,
    writes_follow_responses plainJson plainJson_roundTripsMap trio noSettings
      (runs_of_serviceExec hs) (runs_of_serviceExec ht) (List.mem_of_getElem? hfirst) hpos hlen
      hsecond happends happ⟩

theorem read_past (hjson : ∀ l, json.RoundTripsMap (replay json l).m)
    (hs : ServiceRuns json c settings Service.init s) (hst : ServiceRuns json c settings s t)
    {j : ℕ} (hj : s.calls.length ≤ j) (hc : t.calls[j]? = some call)
    (hpast : s.kv.raft.Past call.node call.incarnation k) {v : String} {found : Bool}
    (hr : call.stage = .answered (.value v found)) : k ≤ call.seen.length := by
  induction hst generalizing call with
  | refl => exact absurd (lt_of_getElem? hc) (not_lt.mpr hj)
  | @tail u w ev hu _ hstep ih =>
    have hreach := raftRuns_of_runs (kvRuns_of_runs (hs.trans hu))
    cases served_of_step hstep with
    | ran => exact ih hc hpast hr
    | wrote n rpc kv q =>
      rcases getElem?_concat hc with hc | ⟨_, rfl⟩
      · exact ih hc hpast hr
      · cases hr
    | began n p rpc stage _ hbegins =>
      rcases getElem?_concat hc with hc | ⟨_, rfl⟩
      · exact ih hc hpast hr
      · cases hr
        cases hbegins
    | advanced m p old new hm hi hp hadv =>
      rcases getElem?_set_cases hc with ⟨rfl, rfl⟩ | ⟨_, hc⟩
      swap
      · exact ih hc hpast hr
      cases hadv with
      | returns k q answer _ _ _ => cases answer <;> cases hr
      | redirects => cases hr
      | reports => cases hr
      | reads key hold =>
        have hnow : u.kv.raft.Past old.node old.incarnation k :=
          hpast.runs (raftRuns_of_runs (kvRuns_of_runs hs)) (raftRuns_of_runs (kvRuns_of_runs hu))
        rw [← hi] at hnow
        obtain ⟨hstarted, hle⟩ := hnow.now hp
        obtain ⟨_, hlen, _⟩ := store_committed hjson hreach hp hstarted
        exact hle.trans_eq hlen.symm

/-- What a process has told clients, its later reads know: a read that is called behind a response
of the same process sees the entry that was acknowledged, or all that an earlier read has seen. -/
theorem reads_follow_session (json : Json)
    (hjson : ∀ l, json.RoundTripsMap (replay json l).m) (c : ValidCluster)
    (settings : NodeId → Config) {s t : Service}
    (hs : ServiceRuns json c settings Service.init s) (hst : ServiceRuns json c settings s t)
    {call : RpcCall} (hc : call ∈ s.calls) {j : ℕ} {call' : RpcCall} (hj : s.calls.length ≤ j)
    (hc' : t.calls[j]? = some call') (hnode : call'.node = call.node)
    (hinc : call'.incarnation = call.incarnation) {v : String} {found : Bool}
    (hread : call'.stage = .answered (.value v found)) :
    (call.stage = .answered .written → ∃ e ∈ call'.seen, s.Appends json call e) ∧
      ∀ v' found', call.stage = .answered (.value v' found') → call.seen <+: call'.seen := by
  have hok := ServiceOk.of_runs hjson hs
  have hok' := ServiceOk.of_runs hjson (hs.trans hst)
  have hlater := raftRuns_of_runs (kvRuns_of_runs hst)
  obtain ⟨a, ha, hagreed⟩ :=
    exists_agreed_account (Represents.nothing _) (raftRuns_of_runs (kvRuns_of_runs (hs.trans hst)))
  obtain ⟨_, _, _, hcommitted', _⟩ := read_seen hok' (List.mem_of_getElem? hc') hread
  have hseen' := hagreed.isPrefix hcommitted'
  have hbehind : ∀ {k}, s.position call = some k → k ≤ call'.seen.length := by
    intro k hpos
    refine read_past hjson hs hst hj hc' ?_ hread
    rw [hnode, hinc]
    exact position_past hs hok hc hpos
  refine ⟨fun hw => ?_, fun v' found' hr => ?_⟩
  · obtain ⟨e, happends, hpos, happ⟩ := written_applied hs hok hc hw
    obtain ⟨i, hi, he⟩ := ha.applied_chosen ((runs_trace hlater).subset happ)
    refine ⟨e, ?_, happends⟩
    have hlt : i < call'.seen.length := by
      have := hbehind hpos
      omega
    apply List.mem_of_getElem? (i := i)
    rw [List.getElem?_eq_getElem hlt, ← he,
      getElem?_of_isPrefix hseen' (List.getElem?_eq_getElem hlt)]
  · obtain ⟨_, _, _, hcommitted, _⟩ := read_seen hok hc hr
    have hseen := hagreed.isPrefix (committedPrefix_mono hcommitted (runs_trace hlater))
    refine List.prefix_of_prefix_length_le hseen hseen' (hbehind ?_)
    rw [Service.position, hr]

theorem reads_follow_session_trio :
    ∃ s t first second, serviceExec Service.init trioOpens = some s ∧
      serviceExec s trioContinues = some t ∧ s.calls[1]? = some first ∧
      first.stage = .answered (.value "1" true) ∧ t.calls[3]? = some second ∧
      second.stage = .answered (.value "2" true) ∧ first.seen <+: second.seen := by
  have hrun : ((serviceExec Service.init trioOpens).bind fun s =>
      (serviceExec s trioContinues).bind fun t => s.calls[1]?.bind fun first =>
      t.calls[3]?.map fun second => decide (s.calls.length ≤ 3 ∧
        first.stage = .answered (.value "1" true) ∧ second.stage = .answered (.value "2" true) ∧
        second.node = first.node ∧ second.incarnation = first.incarnation)) = some true := by
    decide +kernel
  obtain ⟨s, hs, hrest⟩ := Option.bind_eq_some_iff.mp hrun
  obtain ⟨t, ht, hrest⟩ := Option.bind_eq_some_iff.mp hrest
  obtain ⟨first, hfirst, hrest⟩ := Option.bind_eq_some_iff.mp hrest
  obtain ⟨second, hsecond, hfacts⟩ := Option.map_eq_some_iff.mp hrest
  obtain ⟨hlen, hread, hread', hnode, hinc⟩ := of_decide_eq_true hfacts
  obtain ⟨_, hreads⟩ := reads_follow_session plainJson plainJson_roundTripsMap trio noSettings
    (runs_of_serviceExec hs) (runs_of_serviceExec ht) (List.mem_of_getElem? hfirst) hlen hsecond
    hnode hinc hread'
  exact ⟨s, t, first, second, hs, ht, hfirst, hread, hsecond, hread', hreads _ _ hread⟩

theorem put_of_lookup {l : List LogEntry} {key v : String}
    (h : (replay json l).m.lookup key = some v) :
    ∃ e ∈ l, decodeCommand json e.command = .ok ⟨.put, key, v⟩ := by
  induction l using List.reverseRecOn with
  | nil => cases h
  | append_singleton l e ih =>
    have hkept : (replay json l).m.lookup key = some v →
        ∃ x ∈ l ++ [e], decodeCommand json x.command = .ok ⟨.put, key, v⟩ := by
      intro hl
      obtain ⟨x, hx, hdec⟩ := ih hl
      exact ⟨x, List.mem_append_left _ hx, hdec⟩
    rw [replay_concat, applyEntry] at h
    split at h
    · exact hkept h
    rename_i cmd hdec
    split at h
    · exact hkept h
    rename_i store hstore
    rw [Store.lookup_apply hstore, Command.effect] at h
    split at h
    · rename_i hkey
      split at h
      · rename_i hop
        cases h
        refine ⟨e, List.mem_append_right _ (List.mem_singleton_self e), ?_⟩
        rw [hdec, hkey, ← hop]
      · cases h
    · exact hkept h

/-- No value comes out of thin air: what a read finds under a key, a client has put there. -/
theorem values_were_put (json : Json) (hjson : ∀ l, json.RoundTripsMap (replay json l).m)
    (hcmd : ∀ cmd, (∀ name, cmd.op ≠ .unknown name) → json.RoundTrips cmd) (c : ValidCluster)
    (settings : NodeId → Config) {s : Service}
    (hs : ServiceRuns json c settings Service.init s) {call : RpcCall} (hc : call ∈ s.calls)
    {key v : String} (hrpc : call.rpc = .get key) (hr : call.stage = .answered (.value v true)) :
    ∃ call' ∈ s.calls, call'.rpc = .put key v := by
  have hok := ServiceOk.of_runs hjson hs
  obtain ⟨key', hrpc', hval, hcommitted, _⟩ := read_seen hok hc hr
  cases hrpc.symm.trans hrpc'
  have hlookup : (replay json call.seen).m.lookup key = some v := by
    rw [Store.get] at hval
    split at hval
    · rename_i w hw
      cases hval
      exact hw
    · cases hval
  obtain ⟨e, he, hdec⟩ := put_of_lookup hlookup
  obtain ⟨i, hi⟩ := List.getElem?_of_mem he
  obtain ⟨_, m, term, snap, log, ci, hob, hlog, _⟩ := hcommitted i e hi
  obtain ⟨q, hq, _, _, henc⟩ := (sourced_of_runs (kvRuns_of_runs hs)).committed hob hlog
  have hput : q.cmd = ⟨.put, key, v⟩ :=
    Except.ok.inj ((decode_of_encoded henc (hcmd q.cmd (encode_cases json henc).1)).symm.trans hdec)
  obtain ⟨k, hk⟩ := List.getElem?_of_mem hq
  obtain ⟨call', hc', hprop⟩ := hok.made k (lt_of_getElem? hk)
  obtain ⟨q', hq', _, _, hcommand⟩ := (hok.calls call' hc').proposal hprop
  cases hk.symm.trans hq'
  refine ⟨call', hc', ?_⟩
  rw [hput] at hcommand
  cases hcall : call'.rpc with
  | put key' value =>
    rw [hcall] at hcommand
    cases hcommand
    rfl
  | delete key' =>
    rw [hcall] at hcommand
    cases hcommand
  | get | status =>
    rw [hcall] at hcommand
    cases hcommand

theorem values_were_put_trio :
    ∃ s get, serviceExec Service.init trioOpens = some s ∧ s.calls[1]? = some get ∧
      get.rpc = .get "k" ∧ get.stage = .answered (.value "1" true) ∧
      ∃ put ∈ s.calls, put.rpc = .put "k" "1" := by
  have hrun : ((serviceExec Service.init trioOpens).bind fun s => s.calls[1]?.map fun get =>
      decide (get.rpc = .get "k" ∧ get.stage = .answered (.value "1" true))) = some true := by
    decide +kernel
  obtain ⟨s, hs, hrest⟩ := Option.bind_eq_some_iff.mp hrun
  obtain ⟨get, hget, hfacts⟩ := Option.map_eq_some_iff.mp hrest
  obtain ⟨hrpc, hread⟩ := of_decide_eq_true hfacts
  exact ⟨s, get, hs, hget, hrpc, hread, values_were_put plainJson plainJson_roundTripsMap
    (fun _ hop => goJson_roundTrips hop) trio noSettings (runs_of_serviceExec hs)
    (List.mem_of_getElem? hget) hrpc hread⟩

/-- Nothing is written twice: a committed entry was appended by one call, and this call appended
no other committed entry. -/
theorem committed_once (json : Json) (hjson : ∀ l, json.RoundTripsMap (replay json l).m)
    (c : ValidCluster) (settings : NodeId → Config) {s : Service}
    (hs : ServiceRuns json c settings Service.init s) {e : LogEntry}
    (he : s.kv.raft.Committed e) :
    ∃ j call, s.calls[j]? = some call ∧ s.Appends json call e ∧
      (∀ (j' : ℕ) call', s.calls[j']? = some call' → s.Appends json call' e → j' = j) ∧
      ∀ e', s.kv.raft.Committed e' → s.Appends json call e' → e' = e := by
  have hok := ServiceOk.of_runs hjson hs
  have hkv := kvRuns_of_runs hs
  obtain ⟨m, term, snap, log, ci, hob, hlog, _⟩ := id he
  obtain ⟨q, hq, happ, _, henc⟩ := (sourced_of_runs hkv).committed hob hlog
  obtain ⟨k, hk⟩ := List.getElem?_of_mem hq
  obtain ⟨call, hc, hprop⟩ := hok.made k (lt_of_getElem? hk)
  obtain ⟨q', hq', _, _, hcommand⟩ := (hok.calls call hc).proposal hprop
  cases hk.symm.trans hq'
  obtain ⟨j, hj⟩ := List.getElem?_of_mem hc
  have happends : s.Appends json call e := ⟨k, q, q.cmd, hprop, hk, happ, hcommand, henc⟩
  refine ⟨j, call, hj, happends,
    fun j' call' hj' he' => appends_once hs hok hj hj' happends he', ?_⟩
  rintro e' hcommitted ⟨k', r, _, hk', hr, happ', _⟩
  cases hprop.symm.trans hk'
  cases hk.symm.trans hr
  obtain ⟨a, _, hagreed⟩ := exists_agreed_account (Represents.nothing _) (raftRuns_of_runs hkv)
  have hindex := Option.some.inj (happ'.symm.trans happ)
  exact hagreed.unique hcommitted he (congrArg Prod.fst hindex)

theorem committed_once_trio :
    ∃ s e, serviceExec Service.init trioOpens = some s ∧ s.kv.raft.Committed e ∧
      ∃ j call, s.calls[j]? = some call ∧ s.Appends plainJson call e ∧
        ∀ (j' : ℕ) call', s.calls[j']? = some call' → s.Appends plainJson call' e → j' = j := by
  have hrun : ((serviceExec Service.init trioOpens).bind fun s => s.calls[1]?.map fun get =>
      decide (get.stage = .answered (.value "1" true) ∧ get.seen ≠ [])) = some true := by
    decide +kernel
  obtain ⟨s, hs, hrest⟩ := Option.bind_eq_some_iff.mp hrun
  obtain ⟨get, hget, hfacts⟩ := Option.map_eq_some_iff.mp hrest
  obtain ⟨hread, hseen⟩ := of_decide_eq_true hfacts
  have hruns := runs_of_serviceExec hs
  obtain ⟨_, _, _, hcommitted, _⟩ := read_seen
    (ServiceOk.of_runs plainJson_roundTripsMap hruns) (List.mem_of_getElem? hget) hread
  obtain ⟨e, he⟩ := List.exists_mem_of_ne_nil _ hseen
  obtain ⟨i, hi⟩ := List.getElem?_of_mem he
  have hce := (hcommitted i e hi).2
  obtain ⟨j, call, hj, happends, honce, _⟩ :=
    committed_once plainJson plainJson_roundTripsMap trio noSettings hruns hce
  exact ⟨s, e, hs, hce, j, call, hj, happends, honce⟩

end Positions

section Reports

theorem state_string {st : Raft.State} : (st.string = "Leader" ↔ st = .leader) ∧
    (st.string = "Follower" ↔ st = .follower) := by
  cases st <;> decide

/-- What `Status` reports: the indices are in order, a node that is not a follower has counted the
keys of a store that holds everything up to its `LastApplied`, and two reports of a leader that
name the same term, whenever they were made, come from one node, which names itself. -/
theorem status_reports (json : Json) (hjson : ∀ l, json.RoundTripsMap (replay json l).m)
    (c : ValidCluster) (settings : NodeId → Config) {s : Service}
    (hs : ServiceRuns json c settings Service.init s) {call : RpcCall} (hc : call ∈ s.calls)
    {r : StatusResponse} (hr : call.stage = .answered (.status r)) :
    r.nodeId = call.node ∧ r.firstLogIndex ≤ r.commitIndex + 1 ∧
      r.lastApplied ≤ r.commitIndex ∧ r.commitIndex ≤ r.lastLogIndex ∧
      (r.state ≠ "Follower" → s.kv.raft.CommittedPrefix call.seen ∧
        r.lastApplied ≤ call.seen.length ∧ r.keys = (replay json call.seen).len) ∧
      (r.state = "Leader" → r.leaderId = r.nodeId) ∧
      ∀ call' ∈ s.calls, ∀ r', call'.stage = .answered (.status r') → r.state = "Leader" →
        r'.state = "Leader" → r'.currentTerm = r.currentTerm → r'.nodeId = r.nodeId := by
  have hok := ServiceOk.of_runs hjson hs
  have hstatus : ∀ {x}, x ∈ s.calls → ∀ {r}, x.stage = .answered (.status r) → ∃ st keys,
      r = .of st keys ∧ StatusOk s.kv.raft x st ∧ (st.state ≠ .follower →
        keys = (replay json x.seen).len ∧ s.kv.raft.CommittedPrefix x.seen ∧
          st.lastApplied ≤ x.seen.length) := by
    intro x hx r hr
    have hstage := (hok.calls x hx).stage
    rwa [hr] at hstage
  obtain ⟨st, keys, rfl, hst, hkeys⟩ := hstatus hc hr
  refine ⟨hst.own, hst.first, hst.applied, hst.last, fun hf => ?_, fun hl => ?_, ?_⟩
  · obtain ⟨hlen, hseen, hle⟩ := hkeys fun h => hf (state_string.2.mpr h)
    exact ⟨hseen, hle, hlen⟩
  · exact (hst.leader (state_string.1.mp hl)).1
  · intro call' hc' r' hr' hl hl' hterm
    obtain ⟨st', keys', rfl, hst', _⟩ := hstatus hc' hr'
    have helected := (hst.leader (state_string.1.mp hl)).2
    have helected' := (hst'.leader (state_string.1.mp hl')).2
    rw [show st'.currentTerm = st.currentTerm from hterm] at helected'
    exact elected_unique (raftRuns_of_runs (kvRuns_of_runs hs)) helected' helected

theorem status_reports_trio :
    ∃ s t call r, serviceExec Service.init trioOpens = some s ∧
      serviceExec s trioContinues = some t ∧ t.calls[4]? = some call ∧
      call.stage = .answered (.status r) ∧ r.state = "Leader" ∧
      r.lastApplied = 1 ∧ r.keys = 1 ∧ r.leaderId = "n1" ∧
      t.kv.raft.CommittedPrefix call.seen ∧ r.keys = (replay plainJson call.seen).len := by
  have hrun : ((serviceExec Service.init trioOpens).bind fun s =>
      (serviceExec s trioContinues).bind fun t => t.calls[4]?.map fun call =>
        decide (call.node = "n1" ∧ call.stage = .answered (.status
          ⟨"n1", "Leader", 1, "n1", "n1", 2, 1, 2, 1, 1, 1⟩))) = some true := by
    decide +kernel
  obtain ⟨s, hs, hrest⟩ := Option.bind_eq_some_iff.mp hrun
  obtain ⟨t, ht, hrest⟩ := Option.bind_eq_some_iff.mp hrest
  obtain ⟨call, hcall, hfacts⟩ := Option.map_eq_some_iff.mp hrest
  obtain ⟨hnode, hstage⟩ := of_decide_eq_true hfacts
  obtain ⟨_, _, _, _, hkeys, hleader, _⟩ := status_reports plainJson plainJson_roundTripsMap trio
    noSettings ((runs_of_serviceExec hs).trans (runs_of_serviceExec ht))
    (List.mem_of_getElem? hcall) hstage
  obtain ⟨hcommitted, _, hlen⟩ := hkeys (by decide)
  exact ⟨s, t, call, _, hs, ht, hcall, hstage, rfl, rfl, rfl, hleader rfl, hcommitted, hlen⟩

end Reports

end Kv
