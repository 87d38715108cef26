import RaftDB.RaftCursors
import RaftDB.ReplicatedLogFresh

/-!
# What a leader believes about its peers

A leader raises `matchIndex` for a peer on a successful append and on any reply to a snapshot of
its term. The peer then has the prefix on disk, whatever has become of it since, as long as it
stays in the term. Two things can break this: a snapshot loaded after the leadership it is sent
for, and a stopped node, which answers a snapshot like one that it has installed.
-/
namespace Raft

open Storage ClusterConfig ReplicatedLog LogPrefix TransitionSystem
open RaftNode hiding id

variable {σ D : Type}

/-- The node is stopped and answers a snapshot that it would otherwise have to install. -/
def RaftNode.StopsShort (rn : RaftNode D) : Input D → Prop
  | .installSnapshot args => rn.stopped = true ∧ rn.currentTerm ≤ args.term ∧
      rn.commitIndex < args.lastIncludedIndex
  | _ => False

def NoneStopsShort (s : System σ D) (e : Event D) : Prop :=
  ∀ x ∈ s.inputOf e, ∀ p ∈ (s.hosts x.1).proc, ¬p.node.StopsShort x.2

/-- A reply that does not outdate the request comes from a node that has the snapshot's prefix
committed. -/
theorem handleInstallSnapshot_answer {rn rn' : RaftNode D} {args : InstallSnapshotArgs D}
    {reply : InstallSnapshotReply}
    (h : (rn.handleInstallSnapshot args).result = .ok (rn', reply))
    (hshort : ¬rn.StopsShort (.installSnapshot args)) (hle : reply.term ≤ args.term) :
    args.lastIncludedIndex ≤ rn'.commitIndex := by
  rw [handleInstallSnapshot_eq] at h
  split at h
  · rename_i hno
    cases h
    have hstop : rn.stopped = true := hno.resolve_right (not_lt.mpr hle)
    exact not_lt.mp fun hlt => hshort ⟨hstop, hle, hlt⟩
  · have h := Outcome.after_ok h
    rw [acceptSnapshot] at h
    dsimp only at h
    split at h
    · rename_i hcovered
      cases h
      exact hcovered
    split at h
    · cases h
    · cases h
      exact le_rfl

section Invariant

variable {M : StateMachine σ D} {R : Represents M} {c : ValidCluster}
  {settings : NodeId → Config} {s t : System σ D} {a a' : Abstract} {n : NodeId} {e : Event D}

variable (R c settings s a) in
/-- Whatever a leader has taken as confirmed is possessed, and so is whatever a reply in flight
would make it take as confirmed. -/
structure Truthful : Prop where
  sim : Sim R c settings True s a
  confirmed : Confirmed a
  matched : ∀ n p, (s.hosts n).proc = some p → p.node.state = .leader →
    ∀ peer, Possesses a peer p.node.currentTerm (p.node.matchIndex peer)
  replied : ∀ k reply call args, (k, Reply.snapshot reply) ∈ s.replies →
    s.calls[k]? = some call → call.request = .snapshot args → reply.term ≤ args.term →
    Possesses a call.callee args.term args.lastIncludedIndex

theorem Truthful.init : Truthful R c settings System.init (initial NodeId LogEntry) := by
  refine ⟨Sim.init R c settings True, fun w T => Or.inl rfl, ?_, ?_⟩
  · rintro _ _ ⟨⟩
  · rintro _ _ _ _ ⟨⟩

theorem Truthful.confirms (h : Truthful R c settings s a) {k : ℕ} {call : Call D}
    {args : AppendEntriesArgs} {reply : AppendEntriesReply}
    (hr : (k, Reply.append reply) ∈ s.replies) (hk : s.calls[k]? = some call)
    (hreq : call.request = .append args) (hok : reply.success = true) :
    Possesses a call.callee args.term (args.prevLogIndex + args.entries.length) := by
  obtain ⟨call', hk', hrel⟩ := h.sim.replies _ _ hr
  cases hk.symm.trans hk'
  exact (h.confirmed call.callee args.term).of_le (hrel args hreq hok)

theorem Truthful.leader_step (h : Truthful R c settings s a)
    (hst : s.step M c settings e = some t) {i : Input D} {p p' : Proc σ D}
    (hin : s.inputOf e = some (n, i)) (hp : (s.hosts n).proc = some p)
    (hstep : CursorStep p.node p'.node i) (peer : NodeId) :
    Possesses a peer p'.node.currentTerm (p'.node.matchIndex peer) := by
  have hraise : ∀ {q : NodeId} {m : ℕ}, p.node.state = .leader →
      Possesses a q p.node.currentTerm m →
      Possesses a peer p.node.currentTerm (Function.update p.node.matchIndex q m peer) := by
    intro q m hlead hm
    by_cases hq : peer = q
    · subst hq
      rwa [Function.update_self]
    · rw [Function.update_of_ne hq]
      exact h.matched n p hp hlead peer
  cases hstep with
  | kept hlead hterm _ hmatch =>
    rw [hterm, hmatch]
    exact h.matched n p hp hlead peer
  | elected _ _ hmatch =>
    rw [hmatch]
    exact Or.inl rfl
  | @confirmed q term args reply ci htakes hok _ heq =>
    rw [heq]
    refine hraise htakes.leads ?_
    cases input_origin hst hin with
    | own hi => cases hi
    | request call _ _ hi => exact absurd hi.symm call.request.input_ne_appendReply
    | reply k call answer hj hk _ hi _ =>
      obtain ⟨rfl, hreq, rfl, rfl⟩ := Call.input_appendReply hi
      rw [htakes.same]
      exact h.confirms (List.mem_of_getElem? hj) hk hreq hok
  | rejected htakes _ heq =>
    rw [heq]
    exact h.matched n p hp htakes.leads peer
  | @caughtUp q term args reply htakes _ heq =>
    rw [heq]
    refine hraise htakes.leads ?_
    cases input_origin hst hin with
    | own hi => cases hi
    | request call _ _ hi => exact absurd hi.symm call.request.input_ne_snapshotReply
    | reply k call answer hj hk _ hi _ =>
      obtain ⟨rfl, hreq, rfl, rfl⟩ := Call.input_snapshotReply hi
      have hle := htakes.current
      rw [htakes.same] at hle ⊢
      exact h.replied k _ call args (List.mem_of_getElem? hj) hk hreq hle

theorem Sim.snapshot_answer (h : Sim R c settings True t a') {call : Call D} {p p' : Proc σ D}
    {o : StepOutcome σ D} {out : Output D} {args : InstallSnapshotArgs D}
    {reply : InstallSnapshotReply} (hcall : call ∈ t.calls) (hreq : call.request = .snapshot args)
    (ho : p.handle M (.installSnapshot args) = some o) (hres : o.result = .ok (p', out))
    (hout : out.reply = some (.snapshot reply)) (hp' : (t.hosts call.callee).proc = some p')
    (hshort : ¬p.node.StopsShort (.installSnapshot args)) (hle : reply.term ≤ args.term) :
    Possesses a' call.callee args.term args.lastIncludedIndex := by
  cases ho
  obtain ⟨rn', r, hhandler, rfl, rfl⟩ := Proc.locked_ok hres
  cases hout
  have hcommit := handleInstallSnapshot_answer hhandler hshort hle
  have hrel := (h.calls call hcall).request
  rw [hreq] at hrel
  obtain ⟨⟨_, _, hcov, hwon⟩, _⟩ := hrel
  obtain ⟨halive, _, _⟩ := h.related (h.calls call hcall).callee hp'
  refine Invariant.possesses_committed h.valid (h.unstale trivial) (hwon trivial) (hcov trivial) ?_
  rw [halive.node.commit]
  exact hcommit

theorem Truthful.step (h : Truthful R c settings s a) (hload : LoadsWhileLeading s e)
    (hshort : NoneStopsShort s e) (hst : s.step M c settings e = some t) :
    ∃ a', Truthful R c settings t a' := by
  obtain ⟨a', hev, hsim⟩ := h.sim.step (fun _ => hload) hst
  have hkeep : ∀ {w T m}, Possesses a w T m → Possesses a' w T m := fun hx =>
    hx.evolves h.sim.valid (hsim.unstale trivial) hev
  have hcalls := step_calls hst
  refine ⟨a', hsim, ?_, ?_, ?_⟩
  · exact hev.keeps (P := Confirmed) h.sim.valid (hsim.unstale trivial) h.confirmed
      fun hi hf hx hs => hs.confirmed hi hf hx
  · intro n p' hp' hlead peer
    cases proc_step hst hp' with
    | same heq =>
      rw [heq] at hp'
      exact hkeep (h.matched n p' hp' hlead peer)
    | boot rn hrn heq =>
      subst heq
      exact absurd ((newNode_follower hrn).symm.trans hlead) (by decide)
    | moved p i o out hin hp ho hres =>
      exact hkeep (h.leader_step hst hin hp ((p.handled ho hres).cursors.2 hlead) peer)
  · intro k reply call args hr hk hreq hle
    cases reply_step hst hr with
    | old hold =>
      obtain ⟨call', hk', _⟩ := h.sim.replies _ _ hold
      have hsame : call' = call :=
        Option.some.inj ((getElem?_of_isPrefix hcalls hk').symm.trans hk)
      subst hsame
      exact hkeep (h.replied k reply call' args hold hk' hreq hle)
    | answer call' p o p' out he hk' hp ho hres hout hhosts =>
      have hsame : call' = call :=
        Option.some.inj ((getElem?_of_isPrefix hcalls hk').symm.trans hk)
      subst hsame
      have hin : s.inputOf e = some (call'.callee, .installSnapshot args) := by
        rw [he, System.inputOf, hk', Option.map_some, hreq]
        rfl
      rw [hreq] at ho
      refine hsim.snapshot_answer (List.mem_of_getElem? hk) hreq ho hres hout ?_
        (hshort _ hin p hp) hle
      rw [hhosts, settle_host hres]

theorem exists_truthful
    (h : Runs (System.step M c settings) (fun s e => LoadsWhileLeading s e ∧ NoneStopsShort s e)
      System.init s) : ∃ a, Truthful R c settings s a :=
  h.invariant (P := fun s => ∃ a, Truthful R c settings s a) ⟨_, Truthful.init⟩
    fun _ _ _ hx hok hst => hx.elim fun _ ha => ha.step hok.1 hok.2 hst

end Invariant

def Host.currentTerm (h : Host σ D) : ℕ :=
  match h.proc with
  | some p => p.node.currentTerm
  | none => (h.disk.hardState.getD ⟨0, None⟩).currentTerm

/-- What a directory durably holds, read as recovery reads it: the entries under the snapshot's
boundary, then those of the log file beyond it. -/
def durableHistory (disk : Disk (D × List LogEntry)) : Option (List LogEntry) :=
  let sentinel := boundary disk.snapshot
  match loadEntries disk.wal with
  | .error _ => none
  | .ok loaded =>
    match recoverEntries sentinel.index (sentinel.index + 1) loaded with
    | .error _ => none
    | .ok entries => some (history disk.snapshot ⟨sentinel, entries⟩)

section Durable

variable {M : StateMachine σ D} {c : ValidCluster} {settings : NodeId → Config}
  {s : System (σ × List LogEntry) (D × List LogEntry)} {a : Abstract} {n : NodeId}

theorem durableHistory_eq {disk : Disk (D × List LogEntry)} {d : Durable} (h : Mirrors disk d) :
    durableHistory disk = some (history disk.snapshot d.log) := by
  obtain ⟨loaded, hload, hrec⟩ := h.wal.recoverEntries_eq d.numbered
  simp only [durableHistory, hload, h.sentinel, hrec]

/-- The files of a member hold its log, whether it runs or not. -/
theorem Sim.durable {fresh : Prop} (h : Sim M.audit c settings fresh s a) (hn : n ∈ c.members) :
    durableHistory (s.hosts n).disk = some (a.log n) ∧ (s.hosts n).currentTerm = a.term n := by
  cases hp : (s.hosts n).proc with
  | some p =>
    have halive := (h.hosts n hn).alive hp
    rw [durableHistory_eq halive.live.mirrors, history_eq halive.below, Host.currentTerm, hp]
    exact ⟨congrArg some halive.node.log.symm, halive.node.term.symm⟩
  | none =>
    have hdead := (h.hosts n hn).dead hp
    obtain ⟨d, hd, hrel⟩ := hdead.recovers
    have hbelow : Below M.audit (s.hosts n).disk.snapshot (a.chosen.take d.log.base) := by
      cases hs : (s.hosts n).disk.snapshot with
      | none => simp [Below, mirrors_nothing hd hs]
      | some snap =>
        have := hdead.saved hs
        rw [HoldsPrefix, (mirrors_index hd hs).1] at this
        exact this
    rw [durableHistory_eq hd, history_eq hbelow, Host.currentTerm, hp]
    refine ⟨congrArg some hrel.log.symm, ?_⟩
    rw [hd.hardState]
    exact hrel.term.symm

/-- If snapshots are loaded only while the node leads the term of the request, and no stopped
node answers a snapshot that it would have to install, then a peer that is still in the leader's
term durably holds what the leader takes it to hold. -/
theorem match_index_durable (M : StateMachine σ D) (c : ValidCluster)
    (settings : NodeId → Config) {s : System (σ × List LogEntry) (D × List LogEntry)}
    (hrun : Runs (System.step M.audited c settings)
      (fun s e => LoadsWhileLeading s e ∧ NoneStopsShort s e) System.init s)
    {n : NodeId} {p : Proc (σ × List LogEntry) (D × List LogEntry)}
    (hp : (s.hosts n).proc = some p) (hl : p.node.state = .leader) {peer : NodeId}
    (hpeer : peer ∈ p.node.peers) (hterm : (s.hosts peer).currentTerm = p.node.currentTerm) :
    ∃ l, durableHistory (s.hosts peer).disk = some l ∧
      ∀ i < p.node.matchIndex peer, ∃ e, e.index = i + 1 ∧ l[i]? = some e ∧
        (history (s.hosts n).disk.snapshot p.node.log)[i]? = some e := by
  obtain ⟨a, ha⟩ := exists_truthful (R := M.audit) hrun
  obtain ⟨halive, hrel, hconf⟩ := ha.sim.related (ha.sim.member hp) hp
  have hmem : peer ∈ c.members := by
    rw [hconf.peers] at hpeer
    exact (ValidCluster.mem_peerIDs.mp hpeer).1
  obtain ⟨hdur, hcur⟩ := ha.sim.durable hmem
  refine ⟨a.log peer, hdur, fun i hi => ?_⟩
  rcases ha.matched n p hp hl peer with hzero | ⟨hlen, hagree, _⟩
  · omega
  have htake := hagree (hcur.symm.trans hterm).le
  have hlog : a.log n = a.leaderLog p.node.currentTerm := by
    rw [← hrel.node.term]
    exact ((Invariant.roles hrel.valid n).leader (by rw [hrel.node.role, hl]; rfl)).2.1
  have he : (a.leaderLog p.node.currentTerm)[i]? =
      some ((a.leaderLog p.node.currentTerm).get ⟨i, by omega⟩) :=
    List.getElem?_eq_getElem (by omega)
  refine ⟨_, ha.sim.indexed he, (getElem?_of_take_eq htake hi).trans he, ?_⟩
  rw [history_eq halive.below, ← hrel.node.log, hlog]
  exact he

end Durable

section Schedules

instance (rn : RaftNode D) : (i : Input D) → Decidable (rn.StopsShort i)
  | .installSnapshot args => inferInstanceAs (Decidable (rn.stopped = true ∧
      rn.currentTerm ≤ args.term ∧ rn.commitIndex < args.lastIncludedIndex))
  | .start | .stop | .electionTimeout | .propose _ | .replicate _ | .requestVote _
  | .appendEntries _ | .voteReply _ _ | .appendReply _ _ _ _ | .snapshotReply _ _ _ _
  | .applier => .isFalse id

instance (s : System σ D) (e : Event D) : Decidable (NoneStopsShort s e) :=
  inferInstanceAs (Decidable (∀ x ∈ s.inputOf e, ∀ p ∈ (s.hosts x.1).proc,
    ¬p.node.StopsShort x.2))

def trioSends : List (Event (Unit × List LogEntry)) :=
  [.boot "n1", .boot "n2", .boot "n3", .act "n1" .start, .act "n2" .start, .act "n3" .start,
    .act "n1" .electionTimeout, .deliver 0, .deliver 1, .receive 0,
    .act "n1" (.propose [7]), .act "n1" (.propose [8]), .act "n1" (.replicate 1), .deliver 2,
    .receive 2, .act "n1" .applier, .act "n1" .applier, .act "n1" .applier, .act "n1" .applier,
    .act "n1" .applier, .act "n1" .applier, .act "n1" (.replicate 1), .loadSnapshot 0]

theorem match_index_durable_trio :
    ∃ s p, exec (System.step stateless.audited trio firstCompacts)
        (fun s e => decide (LoadsWhileLeading s e ∧ NoneStopsShort s e)) System.init
        (trioSends ++ [.deliver 5, .receive 3]) = some s ∧
      (s.hosts "n1").proc = some p ∧ p.node.state = .leader ∧ "n3" ∈ p.node.peers ∧
      (s.hosts "n3").currentTerm = p.node.currentTerm ∧ p.node.matchIndex "n3" = 2 ∧
      ∃ l, durableHistory (s.hosts "n3").disk = some l ∧ ∀ i < 2, ∃ e, e.index = i + 1 ∧
        l[i]? = some e ∧ (history (s.hosts "n1").disk.snapshot p.node.log)[i]? = some e := by
  have hrun : ((exec (System.step stateless.audited trio firstCompacts)
      (fun s e => decide (LoadsWhileLeading s e ∧ NoneStopsShort s e)) System.init
      (trioSends ++ [.deliver 5, .receive 3])).bind fun s => (s.hosts "n1").proc.map fun p =>
      decide (p.node.state = .leader ∧ "n3" ∈ p.node.peers ∧
        (s.hosts "n3").currentTerm = p.node.currentTerm ∧ p.node.matchIndex "n3" = 2)) =
      some true := by decide +kernel
  obtain ⟨s, hs, hrest⟩ := Option.bind_eq_some_iff.mp hrun
  obtain ⟨p, hp, hfacts⟩ := Option.map_eq_some_iff.mp hrest
  obtain ⟨hlead, hpeer, hterm, hmatch⟩ := of_decide_eq_true hfacts
  have hall := match_index_durable stateless trio firstCompacts
    (runs_of_exec (fun _ _ h => of_decide_eq_true h) _ hs) hp hlead hpeer hterm
  rw [hmatch] at hall
  exact ⟨s, p, hs, hp, hlead, hpeer, hterm, hmatch, hall⟩

def quintet : ValidCluster where
  nodes := [⟨"n1", "h1:7001", "h1:8001"⟩, ⟨"n2", "h2:7001", "h2:8001"⟩,
    ⟨"n3", "h3:7001", "h3:8001"⟩, ⟨"n4", "h4:7001", "h4:8001"⟩, ⟨"n5", "h5:7001", "h5:8001"⟩]
  valid := by decide +kernel

/-- The first member loads the snapshot for the fifth two leaderships too late. -/
def quintetOutlives : List (Event (Unit × List LogEntry)) :=
  [.boot "n1", .boot "n2", .boot "n3", .boot "n4", .boot "n5", .act "n1" .start,
    .act "n4" .start,
    -- term 1: an entry is committed and compacted away, and a round launches the goroutine
    .act "n1" .electionTimeout, .deliver 0, .deliver 1, .receive 0, .receive 1,
    .act "n1" (.propose [7]), .act "n1" (.replicate 1), .deliver 4, .deliver 5, .deliver 6,
    .receive 2, .receive 3, .receive 4, .act "n1" .applier, .act "n1" .applier,
    .act "n1" .applier, .act "n1" .applier, .act "n1" .applier, .act "n1" (.replicate 1),
    -- term 2: the fourth member is elected and sends an entry of its own to the fifth
    .act "n4" .electionTimeout, .deliver 12, .deliver 13, .receive 5, .receive 6,
    .act "n4" (.propose [8]), .act "n4" (.replicate 2),
    -- term 3: the first member commits another entry there and compacts again
    .deliver 11, .act "n1" .electionTimeout, .deliver 19, .deliver 20, .receive 8, .receive 9,
    .act "n1" (.propose [9]), .act "n1" (.replicate 3), .deliver 23, .deliver 24, .receive 10,
    .receive 11, .act "n1" .applier, .act "n1" .applier, .act "n1" .applier, .act "n1" .applier,
    .act "n1" .applier,
    -- the snapshot reaches the fifth member under term 1, then the entry of term 2
    .loadSnapshot 0, .deliver 27, .deliver 18, .receive 13]

/-- First, the third member is stopped when the snapshot reaches it: the leader takes it to hold
two entries, while nothing is on its disk. Second, the fifth member acknowledges an entry of the
fourth under the boundary of a snapshot that has another one there. -/
theorem match_index_lies :
    (∃ s p, Runs (System.step stateless.audited trio firstCompacts) Always System.init s ∧
      (s.hosts "n1").proc = some p ∧ p.node.state = .leader ∧ "n3" ∈ p.node.peers ∧
      (s.hosts "n3").currentTerm = p.node.currentTerm ∧ p.node.matchIndex "n3" = 2 ∧
      durableHistory (s.hosts "n3").disk = some []) ∧
    ∃ s p, Runs (System.step stateless.audited quintet firstCompacts) NoneStopsShort
        System.init s ∧
      (s.hosts "n4").proc = some p ∧ p.node.state = .leader ∧ "n5" ∈ p.node.peers ∧
      (s.hosts "n5").currentTerm = p.node.currentTerm ∧ p.node.matchIndex "n5" = 2 ∧
      durableHistory (s.hosts "n5").disk = some [⟨1, 1, [7]⟩, ⟨3, 2, [9]⟩] ∧
      history (s.hosts "n4").disk.snapshot p.node.log = [⟨1, 1, [7]⟩, ⟨2, 2, [8]⟩] := by
  constructor
  · have hrun : ((exec (System.step stateless.audited trio firstCompacts) (fun _ _ => true)
        System.init (trioSends ++ [.act "n3" .stop, .deliver 5, .receive 3])).bind fun s =>
        (s.hosts "n1").proc.map fun p =>
        decide (p.node.state = .leader ∧ "n3" ∈ p.node.peers ∧
          (s.hosts "n3").currentTerm = p.node.currentTerm ∧ p.node.matchIndex "n3" = 2 ∧
          durableHistory (s.hosts "n3").disk = some [])) = some true := by decide +kernel
    obtain ⟨s, hs, hrest⟩ := Option.bind_eq_some_iff.mp hrun
    obtain ⟨p, hp, hfacts⟩ := Option.map_eq_some_iff.mp hrest
    exact ⟨s, p, runs_of_exec (fun _ _ _ => trivial) _ hs, hp, of_decide_eq_true hfacts⟩
  · have hrun : ((exec (System.step stateless.audited quintet firstCompacts)
        (fun s e => decide (NoneStopsShort s e)) System.init quintetOutlives).bind fun s =>
        (s.hosts "n4").proc.map fun p =>
        decide (p.node.state = .leader ∧ "n5" ∈ p.node.peers ∧
          (s.hosts "n5").currentTerm = p.node.currentTerm ∧ p.node.matchIndex "n5" = 2 ∧
          durableHistory (s.hosts "n5").disk = some [⟨1, 1, [7]⟩, ⟨3, 2, [9]⟩] ∧
          history (s.hosts "n4").disk.snapshot p.node.log =
            [⟨1, 1, [7]⟩, ⟨2, 2, [8]⟩])) = some true := by decide +kernel
    obtain ⟨s, hs, hrest⟩ := Option.bind_eq_some_iff.mp hrun
    obtain ⟨p, hp, hfacts⟩ := Option.map_eq_some_iff.mp hrest
    exact ⟨s, p, runs_of_exec (fun _ _ h => of_decide_eq_true h) _ hs, hp,
      of_decide_eq_true hfacts⟩

end Schedules

end Raft
