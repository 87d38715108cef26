import RaftDB.KvWaiters
import RaftDB.KvChannels

/-!
# The servers of a cluster

What happens on one server of a cluster, since its process was started, is a run of one server on
its own: the calls of the present incarnation with their channels, and the one applier. So no send
blocks in a cluster.
-/
namespace Kv

open Raft ClusterConfig TransitionSystem LogPrefix Function

variable {json : Json} {c : ValidCluster} {settings : NodeId → Config} {s t : KvSystem}
  {n m : NodeId} {k j : ℕ} {p p' : Proposal} {e : Endpoint}

section Calls

theorem modify_of_getElem? {ps : List Proposal} (hk : ps[k]? = some p) (f : Proposal → Proposal) :
    ps.modify k f = ps.set k (f p) := by
  rw [List.modify_eq_set_getElem?, hk]
  rfl

def KvSystem.houses (s : KvSystem) (n : NodeId) (p : Proposal) : Bool :=
  p.node = n ∧ p.incarnation = (s.raft.hosts n).incarnation

def KvSystem.call (s : KvSystem) (n : NodeId) (k : ℕ) : Option Proposal :=
  s.proposals[k]?.filter (s.houses n)

theorem houses_iff : s.houses n p = true ↔
    p.node = n ∧ p.incarnation = (s.raft.hosts n).incarnation :=
  decide_eq_true_iff

@[simp] theorem houses_proposals (ps : List Proposal) :
    ({ s with proposals := ps } : KvSystem).houses n = s.houses n := rfl

theorem call_eq_some : s.call n k = some p ↔ s.proposals[k]? = some p ∧
    p.node = n ∧ p.incarnation = (s.raft.hosts n).incarnation := by
  rw [KvSystem.call, Option.filter_eq_some_iff, houses_iff]

theorem call_set_of_ne (hj : j ≠ k) (p' : Proposal) :
    ({ s with proposals := s.proposals.set k p' } : KvSystem).call n j = s.call n j := by
  rw [KvSystem.call, KvSystem.call, List.getElem?_set_ne (Ne.symm hj), houses_proposals]

theorem call_set (hk : s.proposals[k]? = some p) (hn : p'.node = p.node)
    (hi : p'.incarnation = p.incarnation) :
    ({ s with proposals := s.proposals.set k p' } : KvSystem).call n =
      update (s.call n) k ((s.call n k).map fun _ => p') := by
  funext j
  by_cases hj : j = k
  · subst hj
    have hlt := lt_of_getElem? hk
    have hhouses : s.houses n p' = s.houses n p := by
      rw [KvSystem.houses, KvSystem.houses, hn, hi]
    rw [update_self, KvSystem.call, KvSystem.call, hk, List.getElem?_set_self hlt,
      houses_proposals, Option.filter_some, Option.filter_some, hhouses]
    cases s.houses n p <;> rfl
  · rw [update_of_ne hj, call_set_of_ne hj]

theorem call_set_self (hown : s.call n k = some p) (p' : Proposal) (hn : p'.node = p.node)
    (hi : p'.incarnation = p.incarnation) :
    ({ s with proposals := s.proposals.set k p' } : KvSystem).call n k = some p' := by
  rw [call_set (call_eq_some.mp hown).1 hn hi, update_self, hown]
  rfl

theorem call_append (p : Proposal) :
    ({ s with proposals := s.proposals ++ [p] } : KvSystem).call n =
      update (s.call n) s.proposals.length ((some p).filter (s.houses n)) := by
  funext j
  by_cases hj : j = s.proposals.length
  · subst hj
    rw [update_self, KvSystem.call, List.getElem?_concat_length, houses_proposals]
  · rw [update_of_ne hj, KvSystem.call, KvSystem.call, houses_proposals, List.getElem?_append]
    split
    · rfl
    · rw [List.getElem?_eq_none (by simp; omega), List.getElem?_eq_none (by omega)]

theorem call_length (n : NodeId) : s.call n s.proposals.length = none := by
  rw [KvSystem.call, List.getElem?_eq_none (le_refl _)]
  rfl

theorem call_of_later (h : Recent s) {r : RaftSystem}
    (hr : (s.raft.hosts n).incarnation < (r.hosts n).incarnation) (k : ℕ) :
    ({ s with raft := r } : KvSystem).call n k = none := by
  rw [Option.eq_none_iff_forall_ne_some]
  intro p hp
  obtain ⟨hk, hn, hi⟩ := call_eq_some.mp hp
  have hle := h p (List.mem_of_getElem? hk)
  change p.incarnation = (r.hosts n).incarnation at hi
  rw [hn] at hle
  omega

end Calls

section Shows

def Proposal.pending (p : Proposal) : Option Pending :=
  p.appended.map fun a => ⟨a.1, a.2, p.stage⟩

/-- What one server of the cluster looks like on its own. Its applier is the goroutine 0. -/
structure Shows (s : KvSystem) (n : NodeId) (e : Endpoint) : Prop where
  waiters : e.waiters = (s.servers n).waiters
  fires : e.fires = update (fun _ => .idle) 0 (s.servers n).firing
  lock : e.lock = .free
  calls : ∀ k, e.calls k = (s.call n k).bind Proposal.pending
  buffer : ∀ k, e.buffer k = (s.call n k).bind Proposal.ch

theorem Shows.frame (h : Shows s n e) (hserver : t.servers n = s.servers n)
    (hcall : ∀ k, t.call n k = s.call n k) : Shows t n e := by
  refine ⟨hserver ▸ h.waiters, hserver ▸ h.fires, h.lock, ?_, ?_⟩
  · intro k
    rw [hcall]
    exact h.calls k
  · intro k
    rw [hcall]
    exact h.buffer k

theorem shows_init (hserver : s.servers n = .new) (hcall : ∀ k, s.call n k = none) :
    Shows s n .init := by
  refine ⟨?_, ?_, rfl, ?_, ?_⟩
  · rw [hserver]
    rfl
  · rw [hserver]
    exact (update_eq_self ..).symm
  · intro k
    rw [hcall]
    rfl
  · intro k
    rw [hcall]
    rfl

theorem Shows.firing (h : Shows s n e) : e.fires 0 = (s.servers n).firing := by
  rw [h.fires, update_self]

theorem Shows.fires_update (h : Shows s n e) (firing : Firing) :
    update e.fires 0 firing = update (fun _ => .idle) 0 firing := by
  rw [h.fires, update_idem]

theorem Shows.call_of_held (h : Shows s n e) (htidy : e.Tidy) {a : ℕ ⊕ ℕ}
    (ha : e.rights.holds a = some k) :
    ∃ p, s.call n k = some p ∧ p.stage ≠ .proposed := by
  by_contra hnone
  refine htidy.registered ha ?_
  intro c hc
  rw [h.calls, Option.bind_eq_some_iff] at hc
  obtain ⟨p, hp, hpend⟩ := hc
  obtain ⟨a, _, rfl⟩ := Option.map_eq_some_iff.mp hpend
  by_contra hstage
  exact hnone ⟨p, hp, hstage⟩

theorem Shows.holds_waiter {index : ℕ} {w : Waiter} (h : Shows s n e)
    (hw : (s.servers n).waiters index = some w) :
    e.rights.holds (.inl index) = some w.ch := by
  refine (e.slot_free h.lock index).trans ?_
  rw [h.waiters, hw]
  rfl

theorem Shows.holds_firing {answer : Answer} (h : Shows s n e)
    (hf : (s.servers n).firing = .sending k answer) : e.rights.holds (.inr 0) = some k :=
  congrArg Firing.channel (h.firing.trans hf)

/-- The waiter in the way of a registration is that of another call on the same server. -/
theorem Shows.displaced {index : ℕ} {old : Waiter} {q : Proposal} (h : Shows s n e)
    (htidy : e.Tidy) (hown : s.call n k = some p) (hstage : p.stage = .proposed)
    (hold : (s.servers n).waiters index = some old) (hq : s.proposals[old.ch]? = some q) :
    s.call n old.ch = some q ∧ k ≠ old.ch := by
  obtain ⟨q', hownq, hstageq⟩ := h.call_of_held htidy (h.holds_waiter hold)
  cases hq.symm.trans (call_eq_some.mp hownq).1
  refine ⟨hownq, ?_⟩
  rintro rfl
  cases hown.symm.trans hownq
  exact hstageq hstage

theorem bind_call_set {β : Type*} {g : Proposal → Option β} {f : ℕ → Option β}
    (hf : ∀ j, f j = (s.call n j).bind g) (hown : s.call n k = some p) (p' : Proposal)
    (hn : p'.node = p.node) (hi : p'.incarnation = p.incarnation) (j : ℕ) :
    update f k (g p') j =
      (({ s with proposals := s.proposals.set k p' } : KvSystem).call n j).bind g := by
  rw [call_set (call_eq_some.mp hown).1 hn hi, hown]
  by_cases hj : j = k
  · subst hj
    simp
  · rw [update_of_ne hj, update_of_ne hj]
    exact hf j

theorem bind_call_kept {β : Type*} {g : Proposal → Option β} {f : ℕ → Option β}
    (hf : ∀ j, f j = (s.call n j).bind g) (hown : s.call n k = some p) (hn : p'.node = p.node)
    (hi : p'.incarnation = p.incarnation) (hg : g p' = g p) (j : ℕ) :
    f j = (({ s with proposals := s.proposals.set k p' } : KvSystem).call n j).bind g := by
  have hfk : f k = g p := by
    rw [hf, hown]
    rfl
  rw [← bind_call_set hf hown p' hn hi j, hg, ← hfk, update_eq_self]

theorem bind_call_append {β : Type*} {g : Proposal → Option β} {f : ℕ → Option β}
    (hf : ∀ j, f j = (s.call n j).bind g) (p : Proposal) (j : ℕ) :
    update f s.proposals.length (((some p).filter (s.houses n)).bind g) j =
      (({ s with proposals := s.proposals ++ [p] } : KvSystem).call n j).bind g := by
  rw [call_append]
  by_cases hj : j = s.proposals.length
  · subst hj
    rw [update_self, update_self]
  · rw [update_of_ne hj, update_of_ne hj]
    exact hf j

theorem bind_call_unseen {β : Type*} {g : Proposal → Option β} {f : ℕ → Option β}
    (hf : ∀ j, f j = (s.call n j).bind g)
    (hg : ((some p).filter (s.houses n)).bind g = none) (j : ℕ) :
    f j = (({ s with proposals := s.proposals ++ [p] } : KvSystem).call n j).bind g := by
  have hnone : f s.proposals.length = none := by
    rw [hf, call_length]
    rfl
  rw [← bind_call_append hf p j, hg, ← hnone, update_eq_self]

theorem Shows.elsewhere (h : Shows s n e) (hk : s.proposals[k]? = some p)
    (hother : s.call n k = none) (p' : Proposal) (hn : p'.node = p.node)
    (hi : p'.incarnation = p.incarnation) :
    Shows { s with proposals := s.proposals.set k p' } n e := by
  refine h.frame rfl ?_
  intro j
  rw [call_set hk hn hi, hother]
  exact congrFun (update_eq_iff.mpr ⟨hother.symm, fun _ _ => rfl⟩) j

theorem Shows.aside (h : Shows s n e) (hne : n ≠ m) (server : Server) :
    Shows (s.setServer m server) n e :=
  h.frame (update_of_ne hne ..) fun _ => rfl

theorem call_eq_none (hp : s.call m k = some p) (hne : n ≠ m) : s.call n k = none := by
  rw [Option.eq_none_iff_forall_ne_some]
  intro q hq
  obtain ⟨hk, hm, _⟩ := call_eq_some.mp hp
  obtain ⟨hk', hn, _⟩ := call_eq_some.mp hq
  cases hk.symm.trans hk'
  exact hne (hn.symm.trans hm)

theorem Shows.setFiring (h : Shows s n e) (firing : Firing) :
    Shows (s.setFiring n firing) n (e.setFiring 0 firing) := by
  refine ⟨?_, ?_, h.lock, h.calls, h.buffer⟩
  · rw [waiters_setFiring]
    exact h.waiters
  · rw [firing_setFiring, if_pos rfl]
    exact h.fires_update firing

theorem Shows.setWaiter (h : Shows s n e) (index : ℕ) (v : Option Waiter) :
    Shows (s.setWaiter n index v) n (e.setWaiter index v) := by
  refine ⟨?_, ?_, h.lock, h.calls, h.buffer⟩
  · funext i
    rw [waiters_setWaiter, ← h.waiters]
    simp [Endpoint.setWaiter, update_apply]
  · rw [firing_setWaiter]
    exact h.fires

theorem Shows.setChannel (h : Shows s n e) (hown : s.call n k = some p) (v : Option Answer)
    (sends : List ℕ) : Shows { s with proposals := s.proposals.set k { p with ch := v } } n
      { e with buffer := update e.buffer k v, sends := sends } :=
  ⟨h.waiters, h.fires, h.lock, bind_call_kept h.calls hown rfl rfl rfl,
    bind_call_set h.buffer hown { p with ch := v } rfl rfl⟩

theorem Shows.setStage {c : Pending} (h : Shows s n e) (hown : s.call n k = some p)
    (hc : p.pending = some c) (stage : Stage) :
    Shows { s with proposals := s.proposals.set k { p with stage := stage } } n
      (e.setStage k c stage) := by
  refine ⟨h.waiters, h.fires, h.lock, ?_, bind_call_kept h.buffer hown rfl rfl rfl⟩
  intro j
  have hpend : ({ p with stage := stage } : Proposal).pending = some { c with stage := stage } := by
    obtain ⟨a, ha, rfl⟩ := Option.map_eq_some_iff.mp hc
    simp only [Proposal.pending, ha, Option.map_some]
  rw [← bind_call_set h.calls hown { p with stage := stage } rfl rfl j, hpend]
  rfl

end Shows

section Follows

def Follows (t : KvSystem) (n : NodeId) (e : Endpoint) : Prop :=
  ∃ e', Runs Endpoint.step Always e e' ∧ Shows t n e'

theorem Shows.follows (h : Shows t n e) : Follows t n e := ⟨e, .refl, h⟩

theorem Follows.after {e' : Endpoint} (h : Follows t n e') (ev : EndpointEvent)
    (hs : e.step ev = some e') : Follows t n e := by
  obtain ⟨u, hrun, hu⟩ := h
  exact ⟨u, (Runs.refl.tail trivial hs).trans hrun, hu⟩

theorem Shows.call_pending {c : Pending} (h : Shows s n e) (hown : s.call n k = some p)
    (hc : p.pending = some c) : e.calls k = some c := by
  rw [h.calls, hown]
  exact hc

theorem Shows.applied (h : Shows s n e) (hidle : (s.servers n).firing = .idle)
    (entry : LogEntry) : Follows (s.setFiring n (.taking entry)) n e := by
  refine (h.setFiring (.taking entry)).follows.after (.fire 0 entry) ?_
  simp only [Endpoint.step, h.firing, hidle]

theorem Shows.missed {entry : LogEntry} (h : Shows s n e)
    (hfire : (s.servers n).firing = .taking entry)
    (hw : (s.servers n).waiters entry.index = none) : Follows (s.setFiring n .idle) n e := by
  refine (h.setFiring .idle).follows.after (.take 0) ?_
  simp only [Endpoint.step, h.firing, hfire, Endpoint.locked, h.lock, h.waiters, hw, if_true]

theorem Shows.taken {entry : LogEntry} {w : Waiter} (h : Shows s n e)
    (hfire : (s.servers n).firing = .taking entry)
    (hw : (s.servers n).waiters entry.index = some w) :
    Follows ((s.setWaiter n entry.index none).setFiring n
      (.sending w.ch (if w.term = entry.term then .ok else .notLeader))) n e := by
  refine ((h.setWaiter entry.index none).setFiring _).follows.after (.take 0) ?_
  simp only [Endpoint.step, h.firing, hfire, Endpoint.locked, h.lock, h.waiters, hw, if_true]

theorem Shows.sent {answer : Answer} (h : Shows s n e)
    (hfire : (s.servers n).firing = .sending k answer) (hown : s.call n k = some p)
    (hch : p.ch = none) :
    Follows { s.setFiring n .idle with
      proposals := s.proposals.set k { p with ch := some answer } } n e := by
  have hidle := h.setFiring .idle
  refine (hidle.setChannel hown (some answer) (k :: e.sends)).follows.after (.send 0) ?_
  have hempty : (e.setFiring 0 .idle).buffer k = none := by
    rw [hidle.buffer]
    exact (congrArg (Option.bind · Proposal.ch) hown).trans hch
  rw [Endpoint.step_send (h.firing.trans hfire), Endpoint.sendTo, hempty]
  rfl

theorem Shows.received {answer : Answer} {c : Pending} (h : Shows s n e)
    (hown : s.call n k = some p) (hc : p.pending = some c) (hstage : c.stage = .waiting)
    (hch : p.ch = some answer) :
    Follows { s with
      proposals := s.proposals.set k { p with stage := .returned answer, ch := none } } n e := by
  have hset := (h.setStage hown hc (.returned answer)).setChannel
    (call_set_self hown _ rfl rfl) none e.sends
  simp only [List.set_set] at hset
  have hfull : e.buffer k = some answer := by
    rw [h.buffer, hown]
    exact hch
  refine hset.follows.after (.receive k) ?_
  simp only [Endpoint.step, Endpoint.stepCall, h.call_pending hown hc, hstage, hfull, if_true]
  rfl

theorem Shows.expired {c : Pending} (h : Shows s n e) (hown : s.call n k = some p)
    (hc : p.pending = some c) (hstage : c.stage = .waiting) :
    Follows { s with proposals := s.proposals.set k { p with stage := .givingUp } } n e := by
  refine (h.setStage hown hc .givingUp).follows.after (.expire k) ?_
  simp only [Endpoint.step, Endpoint.stepCall, h.call_pending hown hc, hstage, if_true]

theorem Shows.gaveUp {c : Pending} (h : Shows s n e) (hown : s.call n k = some p)
    (hc : p.pending = some c) (hstage : c.stage = .givingUp) :
    Follows { s.setWaiter n c.index none with
      proposals := s.proposals.set k { p with stage := .returned .contextDone } } n e := by
  have hset := (h.setWaiter c.index none).setStage hown hc (.returned .contextDone)
  refine hset.follows.after (.giveUp k) ?_
  simp only [Endpoint.step, Endpoint.stepCall, h.call_pending hown hc, hstage, Endpoint.locked,
    h.lock, if_true]

theorem Shows.stores {c : Pending} (h : Shows s n e) (hown : s.call n k = some p)
    (hc : p.pending = some c) :
    Follows { s.setWaiter n c.index (some ⟨c.term, k⟩) with
      proposals := s.proposals.set k { p with stage := .waiting } } n
      { e with lock := .storing k c } := by
  have hset := (h.setWaiter c.index (some ⟨c.term, k⟩)).setStage hown hc .waiting
  refine Follows.after ?_ .store (Endpoint.step_store rfl)
  exact ⟨_, .refl, hset.waiters, hset.fires, rfl, hset.calls, hset.buffer⟩

theorem Shows.registered {index term : ℕ} (h : Shows s n e) (htidy : e.Tidy)
    (hown : s.call n k = some p) (happ : p.appended = some (index, term))
    (hstage : p.stage = .proposed) (hreg : s.register k p index term = some t) :
    Follows t n e := by
  obtain ⟨hk, hn, _⟩ := call_eq_some.mp hown
  have hc : p.pending = some ⟨index, term, .proposed⟩ := by
    simp only [Proposal.pending, happ, hstage, Option.map_some]
  have hcall := h.call_pending hown hc
  obtain ⟨ps, hps, rfl⟩ := register_cases hreg
  subst hn
  cases hps with
  | free hnone =>
    rw [modify_of_getElem? hk]
    refine (h.stores hown hc).after (.lock k) ?_
    simp only [Endpoint.step, Endpoint.stepCall, hcall, Endpoint.locked, h.lock, h.waiters, hnone,
      if_true]
  | answered old q hold hq hch =>
    obtain ⟨hownq, hne⟩ := h.displaced htidy hown hstage hold hq
    have hanswered := h.setChannel hownq (some .notLeader) (old.ch :: e.sends)
    have hown' : ({ s with proposals := s.proposals.set old.ch { q with ch := some .notLeader } } :
        KvSystem).call p.node k = some p := by
      rw [call_set_of_ne hne]
      exact hown
    rw [modify_of_getElem? (call_eq_some.mp hown').1]
    have hlocked : e.step (.lock k) =
        some { e with lock := .answering k ⟨index, term, .proposed⟩ old.ch } := by
      simp only [Endpoint.step, Endpoint.stepCall, hcall, Endpoint.locked, h.lock, h.waiters, hold,
        if_true]
    refine ((hanswered.stores hown' hc).after .answer ?_).after (.lock k) hlocked
    rw [Endpoint.step_answer rfl, Endpoint.sendTo, htidy.unsent (h.holds_waiter hold)]

theorem Shows.submitted (h : Shows s n e) (hch : p.ch = none)
    (hstage : ∀ {c}, p.pending = some c → c.stage = .proposed) :
    Follows { s with proposals := s.proposals ++ [p] } n e := by
  have hnone : ((some p).filter (s.houses n)).bind Proposal.ch = none := by
    rw [Option.filter_some]
    split
    · exact hch
    · rfl
  cases hpend : ((some p).filter (s.houses n)).bind Proposal.pending with
  | none =>
    have hkept : Shows { s with proposals := s.proposals ++ [p] } n e :=
      ⟨h.waiters, h.fires, h.lock, bind_call_unseen h.calls hpend,
        bind_call_unseen h.buffer hnone⟩
    exact hkept.follows
  | some c =>
    obtain ⟨q, hq, hc⟩ := Option.bind_eq_some_iff.mp hpend
    cases (Option.filter_eq_some_iff.mp hq).1
    have hcalls := bind_call_append h.calls p
    have hbuffer := bind_call_append h.buffer p
    rw [hpend] at hcalls
    rw [hnone] at hbuffer
    have hshows : Shows { s with proposals := s.proposals ++ [p] } n { e with
        calls := update e.calls s.proposals.length (some c)
        buffer := update e.buffer s.proposals.length none } :=
      ⟨h.waiters, h.fires, h.lock, hcalls, hbuffer⟩
    refine hshows.follows.after (.propose s.proposals.length c.index c.term) ?_
    have hfresh : e.calls s.proposals.length = none := by
      rw [h.calls, call_length]
      rfl
    simp only [Endpoint.step, hfresh, ← hstage hc]

theorem Shows.registered_elsewhere {index term : ℕ} {e' : Endpoint} (h : Shows s n e)
    (h' : Shows s p.node e') (htidy : e'.Tidy) (hown : s.call p.node k = some p)
    (hstage : p.stage = .proposed) (hne : n ≠ p.node)
    (hreg : s.register k p index term = some t) : Shows t n e := by
  obtain ⟨ps, hps, rfl⟩ := register_cases hreg
  have hk := (call_eq_some.mp hown).1
  have hother := call_eq_none hown hne
  obtain ⟨hk', hother', hs⟩ : ps[k]? = some p ∧
      ({ s with proposals := ps } : KvSystem).call n k = none ∧
      Shows { s with proposals := ps } n e := by
    cases hps with
    | free => exact ⟨hk, hother, h⟩
    | answered old q hold hq _ =>
      obtain ⟨hownq, hkne⟩ := h'.displaced htidy hown hstage hold hq
      refine ⟨?_, ?_, h.elsewhere hq (call_eq_none hownq hne) _ rfl rfl⟩
      · rw [List.getElem?_set_ne hkne.symm]
        exact hk
      · rw [call_set_of_ne hkne]
        exact hother
  rw [modify_of_getElem? hk']
  exact (hs.elsewhere hk' hother' { p with stage := .waiting } rfl rfl).aside hne _

theorem call_of_running (hk : s.proposals[k]? = some p) (hrun : s.running p = true) :
    s.call p.node k = some p := by
  rw [KvSystem.running, Bool.and_eq_true, decide_eq_true_eq] at hrun
  exact call_eq_some.mpr ⟨hk, rfl, hrun.2.symm⟩

theorem pending_of_appended {index term : ℕ} (happ : p.appended = some (index, term)) :
    p.pending = some ⟨index, term, p.stage⟩ := by
  rw [Proposal.pending, happ]
  rfl

theorem Shows.onward {r : RaftSystem} (h : Shows s n e)
    (hr : (r.hosts n).incarnation = (s.raft.hosts n).incarnation) :
    Shows { s with raft := r } n e := by
  refine h.frame rfl ?_
  intro k
  have hhouses : ({ s with raft := r } : KvSystem).houses n = s.houses n := by
    funext p
    change decide (_ ∧ p.incarnation = (r.hosts n).incarnation) = _
    rw [hr]
    rfl
  rw [KvSystem.call, KvSystem.call, hhouses]

/-- Every server is a server on its own, at every moment. -/
def Separate (s : KvSystem) : Prop :=
  ∀ n, ∃ e, Runs Endpoint.step Always Endpoint.init e ∧ Shows s n e

theorem Separate.on (h : Separate s) (m : NodeId)
    (hhere : ∀ e, e.Tidy → Shows s m e → Follows t m e)
    (haway : ∀ n e, n ≠ m → Shows s n e → Shows t n e) : Separate t := by
  intro n
  obtain ⟨e, hrun, he⟩ := h n
  by_cases hn : n = m
  · subst hn
    obtain ⟨e', hon, he'⟩ := hhere e (tidy_of_runs tidy_init hrun) he
    exact ⟨e', hrun.trans hon, he'⟩
  · exact ⟨e, hrun, haway n e hn he⟩

theorem Separate.onward (h : Separate s) {r : RaftSystem}
    (hr : ∀ n, (r.hosts n).incarnation = (s.raft.hosts n).incarnation) :
    Separate { s with raft := r } := by
  intro n
  obtain ⟨e, hrun, he⟩ := h n
  exact ⟨e, hrun, he.onward (hr n)⟩

theorem Separate.boot (h : Separate s) (hrecent : Recent s) {m : NodeId} {r : RaftSystem}
    (hraft : s.raft.step (stateMachine json).audited c settings (.boot m) = some r) :
    Separate { s with raft := r, servers := update s.servers m .new } := by
  intro n
  by_cases hn : n = m
  · subst hn
    have hlater := boot_incarnation hraft
    exact ⟨_, .refl, shows_init (update_self ..) (call_of_later hrecent (by omega))⟩
  · obtain ⟨e, hrun, he⟩ := h n
    have hon := he.onward ((step_onward hraft).2 n (by rintro ⟨⟩; exact hn rfl))
    exact ⟨e, hrun, hon.frame (update_of_ne hn ..) fun _ => rfl⟩

theorem Separate.submit (h : Separate s) (hch : p.ch = none)
    (hstage : ∀ {c}, p.pending = some c → c.stage = .proposed) :
    Separate { s with proposals := s.proposals ++ [p] } := by
  intro n
  obtain ⟨e, hrun, he⟩ := h n
  obtain ⟨e', hon, he'⟩ := he.submitted hch hstage
  exact ⟨e', hrun.trans hon, he'⟩

theorem Separate.step (hsep : Separate s) (hrecent : Recent s) {ev : KvEvent}
    (hs : s.step json c settings ev = some t) : Separate t := by
  cases ev with
  | raft ev =>
    cases moved_of_step hs with
    | raft _ raft _ hb hraft => exact hsep.onward fun n => (step_onward hraft).2 n (hb n)
    | boot m raft hraft => exact hsep.boot hrecent hraft
  | applier m =>
    cases moved_of_step hs with
    | applier _ raft out _ hrun => exact hsep.onward (run_onward hrun).2
    | applied _ raft entry hidle hrun =>
      refine (hsep.onward (run_onward hrun).2).on m ?_ ?_
      · intro e _ he
        exact he.applied hidle entry
      · intro n e hn he
        exact he.aside hn _
  | take m =>
    refine hsep.on m ?_ ?_
    · intro e _ he
      cases moved_of_step hs with
      | missed _ entry hfire hw => exact he.missed hfire hw
      | taken _ entry w hfire hw =>
        have htaken := he.taken hfire hw
        simpa only [KvSystem.setWaiter, KvSystem.setFiring, KvSystem.setServer, update_self,
          update_idem] using htaken
    · intro n e hn he
      cases moved_of_step hs with
      | missed => exact he.aside hn _
      | taken => exact he.aside hn _
  | send m =>
    cases moved_of_step hs with
    | sent _ k answer _ hfire hsend =>
      obtain ⟨p, hp, hch, rfl⟩ := sendTo_cases hsend
      obtain ⟨e, hrun, he⟩ := hsep m
      obtain ⟨q, hown, _⟩ := he.call_of_held (tidy_of_runs tidy_init hrun) (he.holds_firing hfire)
      cases hp.symm.trans (call_eq_some.mp hown).1
      refine hsep.on m ?_ ?_
      · intro e _ he
        exact he.sent hfire hown hch
      · intro n e hn he
        have hset := he.elsewhere hp (call_eq_none hown hn) { p with ch := some answer } rfl rfl
        exact hset.aside hn _
  | propose m cmd =>
    cases moved_of_step hs with
    | refused _ _ err => exact hsep.submit rfl (by rintro _ ⟨⟩)
    | appended _ _ data raft index term _ hrun =>
      exact (hsep.onward (run_onward hrun).2).submit rfl (by rintro _ ⟨⟩; rfl)
    | rejected _ _ data raft hrun =>
      exact (hsep.onward (run_onward hrun).2).submit rfl (by rintro _ ⟨⟩)
    | failed _ _ data raft out hrun => exact hsep.onward (run_onward hrun).2
  | register k =>
    obtain ⟨p, index, term, hk, happ, hup, hf⟩ := stepCall_cases hs
    have hown := call_of_running hk hup
    split at hf
    · rename_i hstage
      refine hsep.on p.node ?_ ?_
      · intro e htidy he
        exact he.registered htidy hown happ hstage hf
      · intro n e hn he
        obtain ⟨e', hrun, he'⟩ := hsep p.node
        exact he.registered_elsewhere he' (tidy_of_runs tidy_init hrun) hown hstage hn hf
    · cases hf
  | receive k =>
    obtain ⟨p, index, term, hk, happ, hup, hf⟩ := stepCall_cases hs
    have hown := call_of_running hk hup
    split at hf
    · rename_i answer hstage hch
      cases hf
      refine hsep.on p.node ?_ ?_
      · intro e _ he
        exact he.received hown (pending_of_appended happ) hstage hch
      · intro n e hn he
        exact he.elsewhere hk (call_eq_none hown hn) _ rfl rfl
    · cases hf
  | expire k =>
    obtain ⟨p, index, term, hk, happ, hup, hf⟩ := stepCall_cases hs
    have hown := call_of_running hk hup
    split at hf
    · rename_i hstage
      cases hf
      refine hsep.on p.node ?_ ?_
      · intro e _ he
        exact he.expired hown (pending_of_appended happ) hstage
      · intro n e hn he
        exact he.elsewhere hk (call_eq_none hown hn) _ rfl rfl
    · cases hf
  | giveUp k =>
    obtain ⟨p, index, term, hk, happ, hup, hf⟩ := stepCall_cases hs
    have hown := call_of_running hk hup
    split at hf
    · rename_i hstage
      cases hf
      refine hsep.on p.node ?_ ?_
      · intro e _ he
        exact he.gaveUp hown (pending_of_appended happ) hstage
      · intro n e hn he
        have hset := he.elsewhere hk (call_eq_none hown hn)
          { p with stage := .returned .contextDone } rfl rfl
        exact hset.aside hn _
    · cases hf

/-- What one server does in a run of the cluster, since its process was started, it does on its
own. -/
theorem separate_of_runs (h : Runs (KvSystem.step json c settings) Always KvSystem.init s) :
    Separate s := by
  refine (h.invariant (P := fun s => Recent s ∧ Separate s) ⟨?_, ?_⟩ ?_).2
  · rintro p ⟨⟩
  · intro n
    exact ⟨_, .refl, shows_init rfl fun _ => rfl⟩
  · rintro u ev v ⟨hrecent, hsep⟩ _ hs
    exact ⟨hrecent.moved (moved_of_step hs), hsep.step hrecent hs⟩

theorem sendTo_isSome (hk : s.proposals[k]? = some p) (hch : p.ch = none) (answer : Answer) :
    (s.sendTo k answer).isSome = true := by
  simp only [KvSystem.sendTo, hk, hch, Option.isSome_some]

theorem Shows.channel_empty (h : Shows s n e) (htidy : e.Tidy) {a : ℕ ⊕ ℕ}
    (ha : e.rights.holds a = some k) : ∃ p, s.proposals[k]? = some p ∧ p.ch = none := by
  obtain ⟨p, hown, _⟩ := h.call_of_held htidy ha
  refine ⟨p, (call_eq_some.mp hown).1, ?_⟩
  have hempty := htidy.unsent ha
  rw [h.buffer, hown] at hempty
  exact hempty

/-- In a cluster too the applier of a running server answers when it wants to, and a call that
has proposed registers at once, whatever waiter is in its way. -/
theorem cluster_sends_go_through
    (h : Runs (KvSystem.step json c settings) Always KvSystem.init s) :
    (∀ n k answer, (s.raft.hosts n).proc.isSome = true →
      (s.servers n).firing = .sending k answer →
      (s.step json c settings (.send n)).isSome = true) ∧
    ∀ (k : ℕ) p, s.proposals[k]? = some p → p.appended.isSome = true → s.running p = true →
      p.stage = .proposed → (s.step json c settings (.register k)).isSome = true := by
  have hsep := separate_of_runs h
  refine ⟨?_, ?_⟩
  · intro n k answer hup hfire
    obtain ⟨e, hrun, he⟩ := hsep n
    obtain ⟨p, hp, hch⟩ := he.channel_empty (tidy_of_runs tidy_init hrun) (he.holds_firing hfire)
    have hnone : (s.raft.hosts n).proc.isNone = false := by
      rw [← Option.not_isSome, hup]
      rfl
    simp only [KvSystem.step, KvSystem.sendWaiter, hnone, hfire, Bool.false_eq_true, if_false]
    apply sendTo_isSome _ hch
    exact hp
  · intro k p hk happ hup hstage
    obtain ⟨a, ha⟩ := Option.isSome_iff_exists.mp happ
    simp only [KvSystem.step, KvSystem.stepCall, hk, ha, hup, hstage, KvSystem.register, if_true,
      Option.isSome_map]
    split
    · rfl
    · rename_i old hold
      obtain ⟨e, hrun, he⟩ := hsep p.node
      obtain ⟨q, hq, hch⟩ := he.channel_empty (tidy_of_runs tidy_init hrun)
        (he.holds_waiter hold)
      exact sendTo_isSome hq hch .notLeader

end Follows

end Kv
