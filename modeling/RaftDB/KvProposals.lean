import RaftDB.KvJson
import RaftDB.KvServer

/-!
# What a client may conclude from an answer

Every answer is justified by an applied entry: an OK by the very entry that was appended, and
a refusal by an entry of another term at the same index, unless a second registration of the
index took the waiter's place. Agreement on applied entries then makes a refusal final if no
waiter is ever replaced.
-/
namespace Kv

open Raft ClusterConfig TransitionSystem Function

variable {json : Json} {c : ValidCluster} {settings : NodeId → Config} {clean : Prop}
  {s t : KvSystem}

section Moves

/-- What an event does, by what it finds. -/
inductive Moved (json : Json) (c : ValidCluster) (settings : NodeId → Config) (s : KvSystem) :
    KvEvent → KvSystem → Prop where
  | raft (e : RaftEvent) (raft : RaftSystem) : direct e = true → (∀ n, e ≠ .boot n) →
      s.raft.step (stateMachine json).audited c settings e = some raft →
      Moved json c settings s (.raft e) { s with raft := raft }
  | boot (n : NodeId) (raft : RaftSystem) :
      s.raft.step (stateMachine json).audited c settings (.boot n) = some raft →
      Moved json c settings s (.raft (.boot n))
        { s with raft := raft, servers := update s.servers n .new }
  | applier (n : NodeId) (raft : RaftSystem) (out : Option (Output (List UInt8 × List LogEntry))) :
      (∀ e, out ≠ some (.applied e)) →
      s.raft.run (stateMachine json).audited n .applier = some (raft, out) →
      Moved json c settings s (.applier n) { s with raft := raft }
  | applied (n : NodeId) (raft : RaftSystem) (e : LogEntry) : (s.servers n).firing = .idle →
      s.raft.run (stateMachine json).audited n .applier = some (raft, some (.applied e)) →
      Moved json c settings s (.applier n)
        ({ s with raft := raft }.setServer n { s.servers n with firing := .taking e })
  | missed (n : NodeId) (e : LogEntry) : (s.servers n).firing = .taking e →
      (s.servers n).waiters e.index = none →
      Moved json c settings s (.take n) (s.setServer n { s.servers n with firing := .idle })
  | taken (n : NodeId) (e : LogEntry) (w : Waiter) : (s.servers n).firing = .taking e →
      (s.servers n).waiters e.index = some w →
      Moved json c settings s (.take n) (s.setServer n
        { waiters := update (s.servers n).waiters e.index none
          firing := .sending w.ch (if w.term = e.term then .ok else .notLeader) })
  | sent (n : NodeId) (k : ℕ) (answer : Answer) (t : KvSystem) :
      (s.servers n).firing = .sending k answer →
      (s.setServer n { s.servers n with firing := .idle }).sendTo k answer = some t →
      Moved json c settings s (.send n) t
  | refused (n : NodeId) (cmd : Command) (err : KvError) :
      Moved json c settings s (.propose n cmd) { s with proposals := s.proposals ++
        [⟨n, (s.raft.hosts n).incarnation, cmd, [], none, .returned (.refused err), none⟩] }
  | appended (n : NodeId) (cmd : Command) (data : List UInt8) (raft : RaftSystem)
      (index term : ℕ) : cmd.encode json = .ok data →
      s.raft.run (stateMachine json).audited n (.propose data) =
        some (raft, some (.proposed (some (index, term)))) →
      Moved json c settings s (.propose n cmd) { s with
        raft := raft
        proposals := s.proposals ++
          [⟨n, (s.raft.hosts n).incarnation, cmd, data, some (index, term), .proposed, none⟩] }
  | rejected (n : NodeId) (cmd : Command) (data : List UInt8) (raft : RaftSystem) :
      s.raft.run (stateMachine json).audited n (.propose data) =
        some (raft, some (.proposed none)) →
      Moved json c settings s (.propose n cmd) { s with
        raft := raft
        proposals := s.proposals ++
          [⟨n, (s.raft.hosts n).incarnation, cmd, data, none, .returned .notLeader, none⟩] }
  | failed (n : NodeId) (cmd : Command) (data : List UInt8) (raft : RaftSystem)
      (out : Option (Output (List UInt8 × List LogEntry))) :
      s.raft.run (stateMachine json).audited n (.propose data) = some (raft, out) →
      Moved json c settings s (.propose n cmd) { s with raft := raft }
  | registered (k : ℕ) (p : Proposal) (index term : ℕ) (t : KvSystem) :
      s.proposals[k]? = some p → p.appended = some (index, term) → s.running p = true →
      p.stage = .proposed → s.register k p index term = some t →
      Moved json c settings s (.register k) t
  | received (k : ℕ) (p : Proposal) (answer : Answer) : s.proposals[k]? = some p →
      p.stage = .waiting → p.ch = some answer →
      Moved json c settings s (.receive k) { s with
        proposals := s.proposals.set k { p with stage := .returned answer, ch := none } }
  | expired (k : ℕ) (p : Proposal) : s.proposals[k]? = some p → p.stage = .waiting →
      Moved json c settings s (.expire k) { s with
        proposals := s.proposals.set k { p with stage := .givingUp } }
  | gaveUp (k : ℕ) (p : Proposal) (index term : ℕ) : s.proposals[k]? = some p →
      p.appended = some (index, term) → p.stage = .givingUp →
      Moved json c settings s (.giveUp k) (s.giveUp k p index)

theorem sendTo_cases {k : ℕ} {answer : Answer} (h : s.sendTo k answer = some t) :
    ∃ p, s.proposals[k]? = some p ∧ p.ch = none ∧
      t = { s with proposals := s.proposals.set k { p with ch := some answer } } := by
  rw [KvSystem.sendTo] at h
  split at h
  · cases h
  rename_i p hp
  split at h
  · cases h
  rename_i hch
  cases h
  exact ⟨p, hp, hch, rfl⟩

/-- The calls behind the registration under an index: the one found there is answered. -/
inductive Displaces (s : KvSystem) (n : NodeId) (index : ℕ) : List Proposal → Prop where
  | free : (s.servers n).waiters index = none → Displaces s n index s.proposals
  | answered (old : Waiter) (q : Proposal) : (s.servers n).waiters index = some old →
      s.proposals[old.ch]? = some q → q.ch = none →
      Displaces s n index (s.proposals.set old.ch { q with ch := some .notLeader })

theorem register_cases {k index term : ℕ} {p : Proposal}
    (h : s.register k p index term = some t) :
    ∃ ps, Displaces s p.node index ps ∧
      t = { s.setServer p.node { s.servers p.node with
          waiters := update (s.servers p.node).waiters index (some ⟨term, k⟩) } with
        proposals := ps.modify k fun p => { p with stage := .waiting } } := by
  rw [KvSystem.register] at h
  obtain ⟨s', hs', rfl⟩ := Option.map_eq_some_iff.mp h
  split at hs'
  · rename_i hnone
    cases hs'
    exact ⟨_, .free hnone, rfl⟩
  · rename_i old hold
    obtain ⟨q, hq, hch, rfl⟩ := sendTo_cases hs'
    exact ⟨_, .answered old q hold hq hch, rfl⟩

theorem stepCall_cases {k : ℕ} {f : Proposal → ℕ → ℕ → Option KvSystem}
    (h : s.stepCall k f = some t) : ∃ p index term, s.proposals[k]? = some p ∧
      p.appended = some (index, term) ∧ s.running p = true ∧ f p index term = some t := by
  rw [KvSystem.stepCall] at h
  split at h
  · cases h
  rename_i p hp
  split at h
  · cases h
  rename_i index term happ
  split at h
  · rename_i hrun
    exact ⟨p, index, term, hp, happ, hrun, h⟩
  · cases h

theorem moved_of_step {e : KvEvent} (h : s.step json c settings e = some t) :
    Moved json c settings s e t := by
  cases e with
  | raft e =>
    simp only [KvSystem.step, KvSystem.stepRaft] at h
    split at h
    · rename_i hdirect
      split at h
      · cases h
      rename_i raft hraft
      split at h
      · cases h
        exact .boot _ raft hraft
      · rename_i hb
        cases h
        exact .raft e raft hdirect (fun n heq => hb n heq) hraft
    · cases h
  | applier n =>
    simp only [KvSystem.step, KvSystem.stepApplier] at h
    split at h
    · cases h
    rename_i hidle
    split at h
    · cases h
    · rename_i raft e hrun
      cases h
      exact .applied n raft e (not_not.mp hidle) hrun
    · rename_i raft out hne hrun
      cases h
      exact .applier n raft out (fun e heq => hne e heq) hrun
  | take n =>
    simp only [KvSystem.step, KvSystem.takeWaiter] at h
    split at h
    · cases h
    split at h
    · rename_i e hfire
      split at h
      · rename_i hnone
        cases h
        exact .missed n e hfire hnone
      · rename_i w hw
        cases h
        exact .taken n e w hfire hw
    · cases h
  | send n =>
    simp only [KvSystem.step, KvSystem.sendWaiter] at h
    split at h
    · cases h
    split at h
    · rename_i k answer hfire
      exact .sent n k answer t hfire h
    · cases h
  | propose n cmd =>
    simp only [KvSystem.step, KvSystem.submit] at h
    split at h
    · cases h
    split at h
    · rename_i err _
      cases h
      exact .refused n cmd err
    rename_i data hdata
    split at h
    · rename_i raft appended hrun
      cases h
      exact .appended n cmd data raft appended.1 appended.2 hdata hrun
    · rename_i raft hrun
      cases h
      exact .rejected n cmd data raft hrun
    · rename_i raft out _ _ hrun
      cases h
      exact .failed n cmd data raft out hrun
    · cases h
  | register k =>
    obtain ⟨p, index, term, hp, happ, hrun, hf⟩ := stepCall_cases h
    split at hf
    · rename_i hstage
      exact .registered k p index term t hp happ hrun hstage hf
    · cases hf
  | receive k =>
    obtain ⟨p, index, term, hp, _, _, hf⟩ := stepCall_cases h
    split at hf
    · rename_i answer hstage hch
      cases hf
      exact .received k p answer hp hstage hch
    · cases hf
  | expire k =>
    obtain ⟨p, index, term, hp, _, _, hf⟩ := stepCall_cases h
    split at hf
    · rename_i hstage
      cases hf
      exact .expired k p hp hstage
    · cases hf
  | giveUp k =>
    obtain ⟨p, index, term, hp, happ, _, hf⟩ := stepCall_cases h
    split at hf
    · rename_i hstage
      cases hf
      exact .gaveUp k p index term hp happ hstage
    · cases hf

end Moves

section Raft

abbrev RaftRuns (json : Json) (c : ValidCluster) (settings : NodeId → Config) :
    RaftSystem → RaftSystem → Prop :=
  Runs (System.step (stateMachine json).audited c settings) Always

theorem raftRuns_of_run {r r' : RaftSystem} {n : NodeId}
    {i : Input (List UInt8 × List LogEntry)}
    {out : Option (Output (List UInt8 × List LogEntry))} (hi : i.internal = true)
    (h : r.run (stateMachine json).audited n i = some (r', out)) :
    RaftRuns json c settings r r' := by
  refine Runs.refl.tail (e := .act n i) trivial ?_
  rw [System.step, if_pos hi, h]
  rfl

/-- The servers only use what the cluster allows. -/
theorem Moved.raftRuns {e : KvEvent} (h : Moved json c settings s e t) :
    RaftRuns json c settings s.raft t.raft := by
  have hsend : ∀ {s t : KvSystem} {k answer}, s.sendTo k answer = some t → t.raft = s.raft := by
    intro s t k answer hs
    obtain ⟨p, _, _, rfl⟩ := sendTo_cases hs
    rfl
  cases h with
  | raft e raft _ _ hraft => exact Runs.refl.tail trivial hraft
  | boot n raft hraft => exact Runs.refl.tail trivial hraft
  | applier n raft out _ hrun => exact raftRuns_of_run rfl hrun
  | applied n raft e _ hrun => exact raftRuns_of_run rfl hrun
  | missed | taken | refused | received | expired | gaveUp => exact .refl
  | sent n k answer t _ hs =>
    rw [hsend hs]
    exact .refl
  | appended n cmd data raft index term _ hrun => exact raftRuns_of_run rfl hrun
  | rejected n cmd data raft hrun => exact raftRuns_of_run rfl hrun
  | failed n cmd data raft out hrun => exact raftRuns_of_run rfl hrun
  | registered k p index term t _ _ _ _ hreg =>
    obtain ⟨ps, _, rfl⟩ := register_cases hreg
    exact .refl

theorem raftRuns_of_runs {ok : KvSystem → KvEvent → Prop}
    (h : Runs (KvSystem.step json c settings) ok s t) :
    RaftRuns json c settings s.raft t.raft := by
  induction h with
  | refl => exact .refl
  | tail _ _ hst ih => exact ih.trans (moved_of_step hst).raftRuns

def WasHeld (json : Json) (c : ValidCluster) (settings : NodeId → Config) (r : RaftSystem)
    (e : LogEntry) : Prop :=
  ∃ r₀ n p, RaftRuns json c settings System.init r₀ ∧ RaftRuns json c settings r₀ r ∧
    (r₀.hosts n).proc = some p ∧ e ∈ p.node.log.entries

end Raft

section Recent

open LogPrefix

variable {k : ℕ} {p p' : Proposal}

/-- No call is of an incarnation that has not begun. -/
def Recent (s : KvSystem) : Prop :=
  ∀ p ∈ s.proposals, p.incarnation ≤ (s.raft.hosts p.node).incarnation

theorem Recent.set (h : Recent s) (hk : s.proposals[k]? = some p) (hn : p'.node = p.node)
    (hi : p'.incarnation = p.incarnation) :
    Recent { s with proposals := s.proposals.set k p' } := by
  intro q hq
  rcases List.mem_or_eq_of_mem_set hq with hq | rfl
  · exact h q hq
  · have hle := h p (List.mem_of_getElem? hk)
    rwa [← hn, ← hi] at hle

theorem Recent.append (h : Recent s)
    (hp : p.incarnation = (s.raft.hosts p.node).incarnation) :
    Recent { s with proposals := s.proposals ++ [p] } := by
  intro q hq
  rcases List.mem_append.mp hq with hq | hq
  · exact h q hq
  · cases List.mem_singleton.mp hq
    exact hp.le

theorem Recent.onward (h : Recent s) {r : RaftSystem}
    (hr : ∀ m, (s.raft.hosts m).incarnation ≤ (r.hosts m).incarnation) :
    Recent { s with raft := r } :=
  fun p hp => (h p hp).trans (hr p.node)

theorem Recent.boot (h : Recent s) {n : NodeId} {r : RaftSystem}
    (hraft : s.raft.step (stateMachine json).audited c settings (.boot n) = some r) :
    Recent { s with raft := r } := by
  refine h.onward ?_
  intro m
  by_cases hm : m = n
  · subst hm
    have hnext := boot_incarnation hraft
    omega
  · exact ((step_onward hraft).2 m (by rintro ⟨⟩; exact hm rfl)).ge

theorem Recent.modify (h : Recent s) (k : ℕ) {f : Proposal → Proposal}
    (hn : ∀ p, (f p).node = p.node) (hi : ∀ p, (f p).incarnation = p.incarnation) :
    Recent { s with proposals := s.proposals.modify k f } := by
  intro q hq
  obtain ⟨j, hj⟩ := List.mem_iff_getElem?.mp hq
  rcases getElem?_modify_cases hj with ⟨_, p, hp, rfl⟩ | ⟨_, hp⟩
  · rw [hn, hi]
    exact h p (List.mem_of_getElem? hp)
  · exact h q (List.mem_of_getElem? hp)

theorem Recent.moved (h : Recent s) {ev : KvEvent} (hm : Moved json c settings s ev t) :
    Recent t := by
  cases hm with
  | raft ev raft _ hb hraft => exact h.onward fun m => ((step_onward hraft).2 m (hb m)).ge
  | boot n raft hraft => exact h.boot hraft
  | applier n raft out _ hrun => exact h.onward fun m => ((run_onward hrun).2 m).ge
  | applied n raft entry _ hrun => exact h.onward fun m => ((run_onward hrun).2 m).ge
  | failed n cmd data raft out hrun => exact h.onward fun m => ((run_onward hrun).2 m).ge
  | missed | taken => exact h
  | sent n k answer t _ hs =>
    obtain ⟨p, hp, _, rfl⟩ := sendTo_cases hs
    exact h.set hp rfl rfl
  | refused n cmd err => exact h.append rfl
  | appended n cmd data raft index term _ hrun =>
    have hon := h.onward fun m => ((run_onward hrun).2 m).ge
    exact hon.append ((run_onward hrun).2 n).symm
  | rejected n cmd data raft hrun =>
    have hon := h.onward fun m => ((run_onward hrun).2 m).ge
    exact hon.append ((run_onward hrun).2 n).symm
  | registered k p index term t _ _ _ _ hreg =>
    obtain ⟨ps, hps, rfl⟩ := register_cases hreg
    have hdisplaced : Recent { s with proposals := ps } := by
      cases hps with
      | free => exact h
      | answered old q _ hq _ => exact h.set hq rfl rfl
    exact hdisplaced.modify k (fun _ => rfl) fun _ => rfl
  | received k p answer hk _ _ => exact h.set hk rfl rfl
  | expired k p hk _ => exact h.set hk rfl rfl
  | gaveUp k p index term hk _ _ => exact h.set hk rfl rfl

end Recent

section Invariant

/-- What an answer tells about the entry that was appended. Under `clean` no waiter has been
replaced. -/
def Justified (clean : Prop) (trace : List (Observation (List UInt8 × List LogEntry)))
    (p : Proposal) : Answer → Prop
  | .ok => ∃ e, Observation.applied p.node p.incarnation e ∈ trace ∧
      p.appended = some (e.index, e.term)
  | .notLeader => clean → ∀ index term, p.appended = some (index, term) →
      ∃ n inc e, Observation.applied n inc e ∈ trace ∧ e.index = index ∧ e.term ≠ term
  | _ => True

structure ProposalOk (json : Json) (c : ValidCluster) (settings : NodeId → Config)
    (clean : Prop) (r : RaftSystem) (p : Proposal) : Prop where
  held : ∀ {index term}, p.appended = some (index, term) →
    p.cmd.encode json = .ok p.data ∧ WasHeld json c settings r ⟨term, index, p.data⟩
  channel : ∀ {answer}, p.ch = some answer → Justified clean r.trace p answer
  returned : ∀ {answer}, p.stage = .returned answer → Justified clean r.trace p answer

structure ServerOk (clean : Prop) (r : RaftSystem) (proposals : List Proposal) (n : NodeId)
    (server : Server) : Prop where
  waiters : ∀ {index w}, server.waiters index = some w → ∃ p, proposals[w.ch]? = some p ∧
    p.node = n ∧ p.incarnation = (r.hosts n).incarnation ∧ p.appended = some (index, w.term)
  taking : ∀ {e}, server.firing = .taking e →
    Observation.applied n (r.hosts n).incarnation e ∈ r.trace
  sending : ∀ {k answer}, server.firing = .sending k answer →
    ∃ p, proposals[k]? = some p ∧ Justified clean r.trace p answer

structure Sound (json : Json) (c : ValidCluster) (settings : NodeId → Config) (clean : Prop)
    (s : KvSystem) : Prop where
  reached : RaftRuns json c settings System.init s.raft
  proposals : ∀ p ∈ s.proposals, ProposalOk json c settings clean s.raft p
  servers : ∀ n, ServerOk clean s.raft s.proposals n (s.servers n)

def Extends (ps ps' : List Proposal) : Prop :=
  ∀ (k : ℕ) p, ps[k]? = some p → ∃ p', ps'[k]? = some p' ∧ p'.node = p.node ∧
    p'.incarnation = p.incarnation ∧ p'.appended = p.appended

variable {r r' : RaftSystem} {ps ps' : List Proposal} {p p' : Proposal} {n : NodeId}
  {server : Server}

theorem Justified.mono {trace trace' : List (Observation (List UInt8 × List LogEntry))}
    {answer : Answer} (h : Justified clean trace p answer) (htr : trace <+: trace')
    (hn : p'.node = p.node) (hi : p'.incarnation = p.incarnation)
    (ha : p'.appended = p.appended) : Justified clean trace' p' answer := by
  cases answer with
  | ok =>
    obtain ⟨e, he, happ⟩ := h
    exact ⟨e, by rw [hn, hi]; exact htr.subset he, ha.trans happ⟩
  | notLeader =>
    intro hc index term happ
    obtain ⟨m, inc, e, he, hrest⟩ := h hc index term (ha.symm.trans happ)
    exact ⟨m, inc, e, htr.subset he, hrest⟩
  | _ => trivial

theorem ProposalOk.onward (h : ProposalOk json c settings clean r p)
    (hrun : RaftRuns json c settings r r') : ProposalOk json c settings clean r' p where
  held happ := by
    obtain ⟨henc, r₀, n, q, h₀, hr, hq⟩ := h.held happ
    exact ⟨henc, r₀, n, q, h₀, hr.trans hrun, hq⟩
  channel hch := (h.channel hch).mono (runs_trace hrun) rfl rfl rfl
  returned hs := (h.returned hs).mono (runs_trace hrun) rfl rfl rfl

theorem ServerOk.onward (h : ServerOk clean r ps n server) (htr : r.trace <+: r'.trace)
    (hinc : (r'.hosts n).incarnation = (r.hosts n).incarnation) (hext : Extends ps ps') :
    ServerOk clean r' ps' n server where
  waiters hw := by
    obtain ⟨p, hp, hn, hi, ha⟩ := h.waiters hw
    obtain ⟨p', hp', hn', hi', ha'⟩ := hext _ _ hp
    exact ⟨p', hp', hn'.trans hn, (hi'.trans hi).trans hinc.symm, ha'.trans ha⟩
  taking he := by
    rw [hinc]
    exact htr.subset (h.taking he)
  sending hs := by
    obtain ⟨p, hp, hj⟩ := h.sending hs
    obtain ⟨p', hp', hn', hi', ha'⟩ := hext _ _ hp
    exact ⟨p', hp', hj.mono htr hn' hi' ha'⟩

theorem Extends.refl (ps : List Proposal) : Extends ps ps := fun _ _ hp => ⟨_, hp, rfl, rfl, rfl⟩

theorem Extends.trans {ps'' : List Proposal} (h : Extends ps ps') (h' : Extends ps' ps'') :
    Extends ps ps'' := by
  intro k p hp
  obtain ⟨q, hq, hn, hi, ha⟩ := h _ _ hp
  obtain ⟨q', hq', hn', hi', ha'⟩ := h' _ _ hq
  exact ⟨q', hq', hn'.trans hn, hi'.trans hi, ha'.trans ha⟩

theorem Extends.append (ps new : List Proposal) : Extends ps (ps ++ new) := fun _ _ hp =>
  ⟨_, by rw [List.getElem?_append_left (LogPrefix.lt_of_getElem? hp)]; exact hp, rfl, rfl, rfl⟩

theorem Extends.set {k : ℕ} (hk : ps[k]? = some p) (hn : p'.node = p.node)
    (hi : p'.incarnation = p.incarnation) (ha : p'.appended = p.appended) :
    Extends ps (ps.set k p') := by
  intro j q hq
  by_cases hjk : k = j
  · rw [← hjk, hk] at hq
    cases hq
    refine ⟨p', ?_, hn, hi, ha⟩
    rw [← hjk, List.getElem?_set_self (LogPrefix.lt_of_getElem? hk)]
  · exact ⟨q, by rw [List.getElem?_set_ne hjk]; exact hq, rfl, rfl, rfl⟩

theorem Extends.modify (k : ℕ) (stage : Stage) :
    Extends ps (ps.modify k fun p => { p with stage := stage }) := by
  intro j q hq
  rw [List.getElem?_modify, hq]
  by_cases hjk : k = j
  · exact ⟨_, rfl, by simp [hjk]⟩
  · exact ⟨_, rfl, by simp [hjk]⟩

theorem Sound.onward (h : Sound json c settings clean s)
    (hrun : RaftRuns json c settings s.raft r)
    (hinc : ∀ m, (r.hosts m).incarnation = (s.raft.hosts m).incarnation) :
    Sound json c settings clean { s with raft := r } :=
  ⟨h.reached.trans hrun, fun p hp => (h.proposals p hp).onward hrun,
    fun n => (h.servers n).onward (runs_trace hrun) (hinc n) (.refl _)⟩

theorem Sound.amend (h : Sound json c settings clean s) (hext : Extends s.proposals ps)
    (hps : ∀ p ∈ ps, ProposalOk json c settings clean s.raft p)
    (hserver : ServerOk clean s.raft ps n server) :
    Sound json c settings clean
      { s with servers := update s.servers n server, proposals := ps } := by
  refine ⟨h.reached, hps, fun m => ?_⟩
  by_cases hm : m = n
  · rw [hm]
    simp only [update_self]
    exact hserver
  · simp only [update_of_ne hm]
    exact (h.servers m).onward (List.prefix_refl _) rfl hext

theorem Sound.amend_calls (h : Sound json c settings clean s) (hext : Extends s.proposals ps)
    (hps : ∀ p ∈ ps, ProposalOk json c settings clean s.raft p) :
    Sound json c settings clean { s with proposals := ps } :=
  ⟨h.reached, hps, fun n => (h.servers n).onward (List.prefix_refl _) rfl hext⟩

theorem Sound.setServer (h : Sound json c settings clean s)
    (hserver : ServerOk clean s.raft s.proposals n server) :
    Sound json c settings clean (s.setServer n server) :=
  h.amend (.refl _) h.proposals hserver

theorem Sound.set (h : Sound json c settings clean s) {k : ℕ} (hk : s.proposals[k]? = some p)
    (stage : Stage) (ch : Option Answer)
    (hstage : ∀ {answer}, stage = .returned answer → Justified clean s.raft.trace p answer)
    (hch : ∀ {answer}, ch = some answer → Justified clean s.raft.trace p answer) :
    Extends s.proposals (s.proposals.set k { p with stage := stage, ch := ch }) ∧
      ∀ q ∈ s.proposals.set k { p with stage := stage, ch := ch },
        ProposalOk json c settings clean s.raft q := by
  refine ⟨.set hk rfl rfl rfl, fun q hq => ?_⟩
  rcases List.mem_or_eq_of_mem_set hq with hq | rfl
  · exact h.proposals q hq
  · have hp := h.proposals p (List.mem_of_getElem? hk)
    exact ⟨hp.held, fun hc => (hch hc).mono (List.prefix_refl _) rfl rfl rfl,
      fun hs => (hstage hs).mono (List.prefix_refl _) rfl rfl rfl⟩

theorem Sound.sendTo (h : Sound json c settings clean s) {k : ℕ} {answer : Answer}
    (hj : ∀ p, s.proposals[k]? = some p → Justified clean s.raft.trace p answer)
    (hs : s.sendTo k answer = some t) :
    Sound json c settings clean t ∧ t.raft = s.raft ∧ t.servers = s.servers ∧
      Extends s.proposals t.proposals := by
  obtain ⟨p, hp, _, rfl⟩ := sendTo_cases hs
  obtain ⟨hext, hps⟩ := h.set hp p.stage (some answer)
    (h.proposals p (List.mem_of_getElem? hp)).returned (by rintro _ ⟨⟩; exact hj p hp)
  exact ⟨h.amend_calls hext hps, rfl, rfl, hext⟩

/-- The registration finds no other waiter under its index. -/
def SlotFree (s : KvSystem) : KvEvent → Prop
  | .register k => ∀ p ∈ s.proposals[k]?, ∀ a ∈ p.appended,
      (s.servers p.node).waiters a.1 = none
  | _ => True

instance (s : KvSystem) : (e : KvEvent) → Decidable (SlotFree s e)
  | .register k => inferInstanceAs (Decidable (∀ p ∈ s.proposals[k]?, ∀ a ∈ p.appended,
      (s.servers p.node).waiters a.1 = none))
  | .raft _ | .applier _ | .take _ | .send _ | .propose _ _ | .receive _ | .expire _
  | .giveUp _ => .isTrue trivial

theorem Sound.boot (h : Sound json c settings clean s)
    (hraft : s.raft.step (stateMachine json).audited c settings (.boot n) = some r) :
    Sound json c settings clean { s with raft := r, servers := update s.servers n .new } := by
  have hrun : RaftRuns json c settings s.raft r := Runs.refl.tail trivial hraft
  refine ⟨h.reached.trans hrun, fun p hp => (h.proposals p hp).onward hrun, fun m => ?_⟩
  by_cases hm : m = n
  · rw [hm]
    simp only [update_self]
    exact ⟨by rintro _ _ ⟨⟩, by rintro _ ⟨⟩, by rintro _ _ ⟨⟩⟩
  · simp only [update_of_ne hm]
    exact (h.servers m).onward (runs_trace hrun)
      ((step_onward hraft).2 m (by rintro ⟨⟩; exact hm rfl)) (.refl _)

theorem Sound.taken (h : Sound json c settings clean s) {e : LogEntry} {w : Waiter}
    (hfire : (s.servers n).firing = .taking e)
    (hw : (s.servers n).waiters e.index = some w) :
    ServerOk clean s.raft s.proposals n
      { waiters := update (s.servers n).waiters e.index none
        firing := .sending w.ch (if w.term = e.term then .ok else .notLeader) } := by
  have happ := (h.servers n).taking hfire
  refine ⟨?_, by rintro _ ⟨⟩, ?_⟩
  · intro index w' hw'
    by_cases hi : index = e.index
    · rw [hi] at hw'
      simp at hw'
    · exact (h.servers n).waiters ((update_of_ne hi _ _).symm.trans hw')
  · rintro _ _ ⟨⟩
    obtain ⟨p, hp, hn, hinc, ha⟩ := (h.servers n).waiters hw
    refine ⟨p, hp, ?_⟩
    split
    · rename_i hterm
      exact ⟨e, by rw [hn, hinc]; exact happ, by rw [ha, hterm]⟩
    · rename_i hterm
      intro _ index term ha'
      rw [ha] at ha'
      cases ha'
      exact ⟨n, _, e, happ, rfl, fun heq => hterm heq.symm⟩

theorem Sound.registered (h : Sound json c settings clean s) {k index term : ℕ}
    (hk : s.proposals[k]? = some p) (happ : p.appended = some (index, term))
    (hrun : s.running p = true)
    (hfree : clean → (s.servers p.node).waiters index = none)
    (hreg : s.register k p index term = some t) : Sound json c settings clean t := by
  obtain ⟨ps, hps, rfl⟩ := register_cases hreg
  obtain ⟨hext, hok⟩ : Extends s.proposals ps ∧
      ∀ q ∈ ps, ProposalOk json c settings clean s.raft q := by
    cases hps with
    | free => exact ⟨.refl _, h.proposals⟩
    | answered old q hold hq _ =>
      refine h.set hq q.stage (some .notLeader)
        (h.proposals q (List.mem_of_getElem? hq)).returned ?_
      rintro _ ⟨⟩ hc
      rw [hfree hc] at hold
      cases hold
  have hinc : (s.raft.hosts p.node).incarnation = p.incarnation := by
    rw [KvSystem.running, Bool.and_eq_true] at hrun
    exact of_decide_eq_true hrun.2
  have hext' := hext.trans (.modify k .waiting)
  refine h.amend hext' ?_ ⟨?_, (h.servers p.node).taking, ?_⟩
  · intro q hq
    obtain ⟨j, hj⟩ := List.getElem?_of_mem hq
    rw [List.getElem?_modify] at hj
    obtain ⟨q', hq', rfl⟩ := Option.map_eq_some_iff.mp hj
    have hq'ok := hok q' (List.mem_of_getElem? hq')
    split
    · exact ⟨hq'ok.held, fun hc => (hq'ok.channel hc).mono (List.prefix_refl _) rfl rfl rfl,
        by rintro _ ⟨⟩⟩
    · exact hq'ok
  · intro i w hw
    by_cases hi : i = index
    · rw [hi] at hw
      cases (update_self _ _ _).symm.trans hw
      obtain ⟨q, hq, hn, hi', ha⟩ := hext' _ _ hk
      refine ⟨q, hq, hn, ?_, ?_⟩
      · rw [hi']
        exact hinc.symm
      · rw [hi, ha]
        exact happ
    · obtain ⟨q, hq, hn, hinc', ha⟩ :=
        (h.servers p.node).waiters ((update_of_ne hi _ _).symm.trans hw)
      obtain ⟨q', hq', hn', hi', ha'⟩ := hext' _ _ hq
      exact ⟨q', hq', hn'.trans hn, by rw [hi', hinc'], ha'.trans ha⟩
  · intro j answer hsend
    obtain ⟨q, hq, hj⟩ := (h.servers p.node).sending hsend
    obtain ⟨q', hq', hn', hi', ha'⟩ := hext' _ _ hq
    exact ⟨q', hq', hj.mono (List.prefix_refl _) hn' hi' ha'⟩

theorem Sound.append (h : Sound json c settings clean s)
    (hp : ProposalOk json c settings clean s.raft p) :
    Sound json c settings clean { s with proposals := s.proposals ++ [p] } := by
  refine h.amend_calls (.append _ _) fun q hq => ?_
  rcases List.mem_append.mp hq with hq | hq
  · exact h.proposals q hq
  · rw [List.mem_singleton.mp hq]
    exact hp

theorem Sound.moved (h : Sound json c settings clean s) {e : KvEvent}
    (hok : clean → SlotFree s e) (hm : Moved json c settings s e t) :
    Sound json c settings clean t := by
  cases hm with
  | raft e raft _ hb hraft =>
    exact h.onward (Runs.refl.tail trivial hraft) fun m => (step_onward hraft).2 m (hb m)
  | boot n raft hraft => exact h.boot hraft
  | applier n raft out _ hrun =>
    exact h.onward (raftRuns_of_run rfl hrun) (run_onward hrun).2
  | applied n raft e _ hrun =>
    have hs := h.onward (raftRuns_of_run rfl hrun) (run_onward hrun).2
    refine hs.setServer ⟨(hs.servers n).waiters, ?_, by rintro _ _ ⟨⟩⟩
    rintro _ ⟨⟩
    change Observation.applied n (raft.hosts n).incarnation e ∈ raft.trace
    rw [(run_onward hrun).2 n]
    exact run_applied hrun
  | missed n e _ _ =>
    exact h.setServer ⟨(h.servers n).waiters, by rintro _ ⟨⟩, by rintro _ _ ⟨⟩⟩
  | taken n e w hfire hw => exact h.setServer (h.taken hfire hw)
  | sent n k answer t hfire hs =>
    have hidle : Sound json c settings clean
        (s.setServer n { s.servers n with firing := .idle }) :=
      h.setServer ⟨(h.servers n).waiters, by rintro _ ⟨⟩, by rintro _ _ ⟨⟩⟩
    refine (hidle.sendTo (fun p hp => ?_) hs).1
    obtain ⟨q, hq, hj⟩ := (h.servers n).sending hfire
    cases hq.symm.trans hp
    exact hj
  | refused n cmd err =>
    refine h.append ⟨by rintro _ _ ⟨⟩, by rintro _ ⟨⟩, ?_⟩
    rintro _ ⟨⟩
    trivial
  | appended n cmd data raft index term henc hrun =>
    have hs := h.onward (raftRuns_of_run rfl hrun) (run_onward hrun).2
    obtain ⟨q, hq, hmem⟩ := run_proposed hrun
    refine hs.append ⟨?_, by rintro _ ⟨⟩, by rintro _ ⟨⟩⟩
    rintro _ _ ⟨⟩
    exact ⟨henc, raft, n, q, hs.reached, .refl, hq, hmem⟩
  | rejected n cmd data raft hrun =>
    have hs := h.onward (raftRuns_of_run rfl hrun) (run_onward hrun).2
    refine hs.append ⟨by rintro _ _ ⟨⟩, by rintro _ ⟨⟩, ?_⟩
    rintro _ ⟨⟩ _ _ _ ⟨⟩
  | failed n cmd data raft out hrun =>
    exact h.onward (raftRuns_of_run rfl hrun) (run_onward hrun).2
  | registered k p index term t hk happ hrun _ hreg =>
    exact h.registered hk happ hrun (fun hc => hok hc p hk (index, term) happ) hreg
  | received k p answer hk _ hch =>
    have hp := h.proposals p (List.mem_of_getElem? hk)
    obtain ⟨hext, hps⟩ := h.set hk (.returned answer) none
      (by rintro _ ⟨⟩; exact hp.channel hch) (by rintro _ ⟨⟩)
    exact h.amend_calls hext hps
  | expired k p hk _ =>
    obtain ⟨hext, hps⟩ := h.set hk .givingUp p.ch (by rintro _ ⟨⟩)
      (h.proposals p (List.mem_of_getElem? hk)).channel
    exact h.amend_calls hext hps
  | gaveUp k p index term hk happ _ =>
    obtain ⟨hext, hps⟩ := h.set hk (.returned .contextDone) p.ch
      (by rintro _ ⟨⟩; trivial) (h.proposals p (List.mem_of_getElem? hk)).channel
    refine h.amend hext hps ((?_ : ServerOk clean s.raft s.proposals p.node _).onward
      (List.prefix_refl _) rfl hext)
    refine ⟨?_, (h.servers p.node).taking, (h.servers p.node).sending⟩
    intro i w hw
    by_cases hi : i = index
    · rw [hi] at hw
      cases (update_self _ _ _).symm.trans hw
    · exact (h.servers p.node).waiters ((update_of_ne hi _ _).symm.trans hw)

theorem Sound.init : Sound json c settings clean KvSystem.init :=
  ⟨.refl, by rintro _ ⟨⟩, fun _ => ⟨by rintro _ _ ⟨⟩, by rintro _ ⟨⟩, by rintro _ _ ⟨⟩⟩⟩

theorem Sound.of_runs {ok : KvSystem → KvEvent → Prop}
    (hok : ∀ {s e}, ok s e → clean → SlotFree s e)
    (h : Runs (KvSystem.step json c settings) ok KvSystem.init s) :
    Sound json c settings clean s :=
  h.invariant Sound.init fun _ _ _ hs ho hst => hs.moved (hok ho) (moved_of_step hst)

end Invariant

section Answers

theorem restored_agree (h : RaftRuns json c settings System.init s.raft) {n m : NodeId}
    {inc inc' : ℕ} {e e' : LogEntry} {data : List UInt8} {l : List LogEntry}
    (he : Observation.applied n inc e ∈ s.raft.trace)
    (hr : Observation.restored m inc' (data, l) ∈ s.raft.trace) (hmem : e' ∈ l)
    (hindex : e'.index = e.index) : e' = e := by
  obtain ⟨a, _, ha⟩ := (Sim.init (stateMachine json).audit c settings False).runs
    (fun _ => False.elim) h
  obtain ⟨i, hi, hch⟩ := ha.applied_chosen he
  obtain ⟨k, _, hl⟩ := ha.trace _ hr
  obtain ⟨j, hj⟩ := List.getElem?_of_mem hmem
  rw [show l = a.chosen.take k from hl] at hj
  have hj' := LogPrefix.getElem?_of_isPrefix (List.take_prefix k a.chosen) hj
  have hidx := Valid.chosen_index ha.valid ha.indexed hj'
  have hji : j = i := by omega
  rw [hji, hch] at hj'
  exact (Option.some.inj hj').symm

abbrev kvExec (ok : KvSystem → KvEvent → Bool) (s : KvSystem) :
    List KvEvent → Option KvSystem :=
  exec (KvSystem.step plainJson trio noSettings) ok s

def trioStarts : List KvEvent :=
  [.raft (.boot "n1"), .raft (.boot "n2"), .raft (.boot "n3"), .raft (.act "n1" .start),
    .raft (.act "n2" .start), .raft (.act "n3" .start)]

def trioAnswers : List KvEvent :=
  trioStarts ++ ([.raft (.act "n1" .electionTimeout), .raft (.deliver 0), .raft (.receive 0),
    .propose "n1" ⟨.put, "k", "1"⟩, .register 0, .raft (.act "n1" (.replicate 1)),
    .raft (.deliver 2), .raft (.receive 1), .applier "n1", .applier "n1", .take "n1",
    .send "n1", .receive 0] : List KvEvent)

def trioFollows : List KvEvent :=
  [.raft (.act "n1" (.replicate 1)), .raft (.deliver 4), .applier "n2", .applier "n2"]

/-- If no registration finds another waiter in its place, a refusal is final: nothing is
ever applied at the index and the term that the command was appended at. -/
theorem superseded_is_final (json : Json) (c : ValidCluster) (settings : NodeId → Config)
    {s t : KvSystem} (hs : Runs (KvSystem.step json c settings) SlotFree KvSystem.init s)
    (hst : Runs (KvSystem.step json c settings) Always s t) {p : Proposal}
    (hp : p ∈ s.proposals) {index term : ℕ} (happ : p.appended = some (index, term))
    (hret : p.stage = .returned .notLeader) :
    ∀ m inc e, Observation.applied m inc e ∈ t.raft.trace →
      ¬(e.index = index ∧ e.term = term) := by
  have hsound : Sound json c settings True s := .of_runs (fun hok _ => hok) hs
  obtain ⟨n, inc, e, he, hindex, hterm⟩ :=
    (hsound.proposals p hp).returned hret trivial index term happ
  have hlater := raftRuns_of_runs hst
  rintro m inc' x hx ⟨hxi, hxt⟩
  have heq := applied_agree (hsound.reached.trans hlater) ((runs_trace hlater).subset he) hx
    (hxi.trans hindex.symm)
  rw [heq] at hxt
  exact hterm hxt

def trioSupersedes : List KvEvent :=
  trioStarts ++ ([.raft (.act "n1" .electionTimeout), .raft (.deliver 0), .raft (.receive 0),
    .propose "n1" ⟨.put, "k", "1"⟩, .register 0,
    .raft (.act "n2" .electionTimeout), .raft (.deliver 3), .raft (.receive 1),
    .propose "n2" ⟨.put, "k", "2"⟩, .raft (.act "n2" (.replicate 2)), .raft (.deliver 5),
    .raft (.receive 2), .raft (.act "n2" (.replicate 2)), .raft (.deliver 6),
    .applier "n1", .applier "n1", .take "n1", .send "n1", .receive 0] : List KvEvent)

theorem superseded_is_final_trio :
    ∃ s p, kvExec (fun s e => decide (SlotFree s e)) KvSystem.init trioSupersedes = some s ∧
      p ∈ s.proposals ∧ p.appended = some (1, 1) ∧ p.stage = .returned .notLeader ∧
      Observation.applied "n1" 1 ⟨2, 1, plainJson.marshalCommand ⟨.put, "k", "2"⟩⟩ ∈ s.raft.trace ∧
      ∀ m inc e, Observation.applied m inc e ∈ s.raft.trace → ¬(e.index = 1 ∧ e.term = 1) := by
  have hrun : ((kvExec (fun s e => decide (SlotFree s e)) KvSystem.init trioSupersedes).any
      fun s => decide ((⟨"n1", 1, ⟨.put, "k", "1"⟩, plainJson.marshalCommand ⟨.put, "k", "1"⟩, some (1, 1),
        .returned .notLeader, none⟩ : Proposal) ∈ s.proposals) &&
      decide (Observation.applied "n1" 1 ⟨2, 1, plainJson.marshalCommand ⟨.put, "k", "2"⟩⟩
        ∈ s.raft.trace)) = true := by
    decide +kernel
  obtain ⟨s, hs, hrun⟩ := (Option.any_eq_true _ _).mp hrun
  obtain ⟨hp, happ⟩ := Bool.and_eq_true_iff.mp hrun
  have hp := of_decide_eq_true hp
  exact ⟨s, _, hs, hp, rfl, rfl, of_decide_eq_true happ,
    superseded_is_final plainJson trio noSettings
      (runs_of_exec (fun _ _ h => of_decide_eq_true h) _ hs) .refl hp rfl rfl⟩

/-- Two calls of one index on one server, the later one registered first. -/
def lateRegistration : List KvEvent :=
  trioStarts ++ ([
    -- term 1: two commands are appended, and none is registered
    .raft (.act "n1" .electionTimeout), .raft (.deliver 1), .raft (.receive 0),
    .propose "n1" ⟨.put, "k", "1"⟩, .propose "n1" ⟨.put, "k", "2"⟩,
    -- term 2: another leader overwrites both with one entry
    .raft (.act "n2" .electionTimeout), .raft (.act "n2" .electionTimeout), .raft (.deliver 5),
    .raft (.receive 1), .propose "n2" ⟨.put, "k", "3"⟩, .raft (.act "n2" (.replicate 2)),
    .raft (.deliver 6),
    -- term 3: index 2 is appended again and registered, and then the old call registers
    .raft (.act "n1" .electionTimeout), .raft (.deliver 8), .raft (.receive 3),
    .propose "n1" ⟨.put, "k", "4"⟩, .register 3, .register 1, .receive 3,
    -- the entry of the refused call is replicated and applied
    .raft (.act "n1" (.replicate 3)), .raft (.deliver 10), .raft (.receive 4),
    .applier "n1", .applier "n1", .take "n1", .applier "n1"] : List KvEvent)

/-- A call is refused, and its command is applied all the same. -/
theorem refused_but_applied :
    ∃ s p, kvExec (fun _ _ => true) KvSystem.init lateRegistration = some s ∧
      p ∈ s.proposals ∧ p.node = "n1" ∧ p.appended = some (2, 3) ∧
      p.stage = .returned .notLeader ∧
      Observation.applied "n1" 1 ⟨3, 2, p.data⟩ ∈ s.raft.trace := by
  have hrun : ((kvExec (fun _ _ => true) KvSystem.init lateRegistration).any fun s =>
      decide ((⟨"n1", 1, ⟨.put, "k", "4"⟩, plainJson.marshalCommand ⟨.put, "k", "4"⟩, some (2, 3),
        .returned .notLeader, none⟩ : Proposal) ∈ s.proposals) &&
      decide (Observation.applied "n1" 1 ⟨3, 2, plainJson.marshalCommand ⟨.put, "k", "4"⟩⟩
        ∈ s.raft.trace)) = true := by
    decide +kernel
  obtain ⟨s, hs, hrun⟩ := (Option.any_eq_true _ _).mp hrun
  obtain ⟨hp, happ⟩ := Bool.and_eq_true_iff.mp hrun
  exact ⟨s, _, hs, of_decide_eq_true hp, rfl, rfl, rfl, of_decide_eq_true happ⟩

end Answers

end Kv
