import RaftDB.KvWaiters

/-!
# Acknowledgments

A call may register only after the applier has looked for a waiter of its index, and then
nobody takes the waiter out again. A call that registers in time, and whose waiter no other
call deletes, is in the map until the applier takes it out, and is answered then.
-/
namespace Kv

open Raft ClusterConfig TransitionSystem LogPrefix Function

variable {json : Json} {c : ValidCluster} {settings : NodeId → Config} {clean : Prop}
  {s t : KvSystem}

def KvSystem.applied (s : KvSystem) (n : NodeId) : List LogEntry :=
  s.raft.trace.filterMap fun
    | .applied m inc e => if m = n ∧ inc = (s.raft.hosts n).incarnation then some e else none
    | _ => none

theorem mem_applied {n : NodeId} {e : LogEntry} : e ∈ s.applied n ↔
    Observation.applied n (s.raft.hosts n).incarnation e ∈ s.raft.trace := by
  rw [KvSystem.applied, List.mem_filterMap]
  constructor
  · rintro ⟨o, ho, heq⟩
    cases o with
    | applied m inc x =>
      dsimp only at heq
      split at heq
      · rename_i hmatch
        cases heq
        rw [← hmatch.2, ← hmatch.1]
        exact ho
      · cases heq
    | _ => cases heq
  · intro ho
    exact ⟨_, ho, if_pos ⟨rfl, rfl⟩⟩

/-- A call registers before the applier has looked for a waiter of its index, and one that
gives up finds no other call's waiter in its place. -/
def Timely (s : KvSystem) : KvEvent → Prop
  | .register k => ∀ p ∈ s.proposals[k]?, ∀ a ∈ p.appended, ∀ e ∈ s.applied p.node,
      e.index = a.1 → (s.servers p.node).firing = .taking e
  | .giveUp k => OwnSlot s k
  | _ => True

instance (s : KvSystem) : (e : KvEvent) → Decidable (Timely s e)
  | .register k => inferInstanceAs (Decidable (∀ p ∈ s.proposals[k]?, ∀ a ∈ p.appended,
      ∀ e ∈ s.applied p.node, e.index = a.1 → (s.servers p.node).firing = .taking e))
  | .giveUp k => inferInstanceAs (Decidable (OwnSlot s k))
  | .raft _ | .applier _ | .take _ | .send _ | .propose _ _ | .receive _ | .expire _ =>
    .isTrue trivial

/-- No waiter is in the map beyond the point where the applier looks for it, and an unanswered
call is in the map or is being answered. -/
structure Prompt (s : KvSystem) : Prop where
  recent : Recent s
  timely : ∀ {n index w e}, (s.servers n).waiters index = some w → e ∈ s.applied n →
    e.index = index → (s.servers n).firing = .taking e
  awaited : ∀ {k : ℕ} {p index term}, s.proposals[k]? = some p → p.appended = some (index, term) →
    (s.raft.hosts p.node).incarnation = p.incarnation → p.ch = none →
    (p.stage = .waiting ∨ p.stage = .givingUp) →
    (s.servers p.node).waiters index = some ⟨term, k⟩ ∨
      ∃ answer, (s.servers p.node).firing = .sending k answer

variable {n m : NodeId} {p : Proposal} {k i : ℕ} {w : Waiter} {r : RaftSystem}

theorem Prompt.onward (h : Prompt s)
    (hinc : ∀ m, (r.hosts m).incarnation = (s.raft.hosts m).incarnation)
    (htr : ∀ {m inc e}, Observation.applied m inc e ∈ r.trace →
      Observation.applied m inc e ∈ s.raft.trace) : Prompt { s with raft := r } := by
  refine ⟨Recent.onward h.recent fun m => (hinc m).ge, ?_, ?_⟩
  · intro m index w e hw he hindex
    rw [mem_applied] at he
    change Observation.applied m (r.hosts m).incarnation e ∈ r.trace at he
    rw [hinc] at he
    exact h.timely hw (mem_applied.mpr (htr he)) hindex
  · intro k p index term hp ha hcur
    exact h.awaited hp ha ((hinc p.node).symm.trans hcur)

theorem Prompt.boot (h : Prompt s)
    (hraft : s.raft.step (stateMachine json).audited c settings (.boot n) = some r) :
    Prompt { s with raft := r, servers := update s.servers n .new } := by
  have htrace : r.trace = s.raft.trace := by
    cases stepped_of_step hraft with
    | boot => rfl
  have hnew := boot_incarnation hraft
  have hold : ∀ m, m ≠ n → (r.hosts m).incarnation = (s.raft.hosts m).incarnation := by
    intro m hm
    exact (step_onward hraft).2 m (by rintro ⟨⟩; exact hm rfl)
  refine ⟨Recent.boot h.recent hraft, ?_, ?_⟩
  · intro m index w e hw he hindex
    by_cases hm : m = n
    · subst hm
      simp only [update_self] at hw
      cases hw
    · simp only [update_of_ne hm] at hw ⊢
      rw [mem_applied] at he
      change Observation.applied m (r.hosts m).incarnation e ∈ r.trace at he
      rw [hold m hm, htrace] at he
      exact h.timely hw (mem_applied.mpr he) hindex
  · intro k p index term hp ha hcur hch hstage
    change (r.hosts p.node).incarnation = p.incarnation at hcur
    by_cases hn : p.node = n
    · have hle := h.recent p (List.mem_of_getElem? hp)
      rw [hn, hnew] at hcur
      rw [hn] at hle
      omega
    · rw [hold _ hn] at hcur
      simp only [update_of_ne hn]
      exact h.awaited hp ha hcur hch hstage

theorem Prompt.setFiring (h : Prompt s) (n : NodeId) (firing : Firing)
    (htimely : ∀ {index w e}, (s.servers n).waiters index = some w → e ∈ s.applied n →
      e.index = index → firing = .taking e)
    (hsend : ∀ k answer, (s.servers n).firing = .sending k answer →
      ∀ p, s.proposals[k]? = some p → p.ch ≠ none) :
    Prompt (s.setFiring n firing) := by
  refine ⟨h.recent, ?_, ?_⟩
  · intro m index w e hw he hindex
    rw [waiters_setFiring] at hw
    rw [firing_setFiring]
    split
    · rename_i hm
      subst hm
      exact htimely hw he hindex
    · exact h.timely hw he hindex
  · intro k p index term hp ha hcur hch hstage
    rw [waiters_setFiring, firing_setFiring]
    rcases h.awaited hp ha hcur hch hstage with hw | ⟨answer, hs⟩
    · exact Or.inl hw
    · split
      · rename_i hn
        rw [hn] at hs
        exact absurd hch (hsend k answer hs p hp)
      · exact Or.inr ⟨answer, hs⟩

theorem Prompt.set (h : Prompt s) (hk : s.proposals[k]? = some p) (p' : Proposal)
    (hn : p'.node = p.node) (hi : p'.incarnation = p.incarnation)
    (ha : p'.appended = p.appended)
    (hopen : p'.ch = none → (p'.stage = .waiting ∨ p'.stage = .givingUp) →
      p.ch = none ∧ (p.stage = .waiting ∨ p.stage = .givingUp)) :
    Prompt { s with proposals := s.proposals.set k p' } := by
  refine ⟨Recent.set h.recent hk hn hi, h.timely, ?_⟩
  · intro j q index term hq happ hcur hch hstage
    rcases getElem?_set_cases hq with ⟨rfl, rfl⟩ | ⟨_, hq⟩
    · obtain ⟨hch, hstage⟩ := hopen hch hstage
      rw [hn] at hcur ⊢
      exact h.awaited hk (ha.symm.trans happ) (hcur.trans hi) hch hstage
    · exact h.awaited hq happ hcur hch hstage

theorem Prompt.append (h : Prompt s)
    (hrecent : p.incarnation = (s.raft.hosts p.node).incarnation)
    (hstage : p.stage ≠ .waiting ∧ p.stage ≠ .givingUp) :
    Prompt { s with proposals := s.proposals ++ [p] } := by
  refine ⟨Recent.append h.recent hrecent, h.timely, ?_⟩
  · intro j q index term hq happ hcur hch hst
    rcases getElem?_concat hq with hq | ⟨_, rfl⟩
    · exact h.awaited hq happ hcur hch hst
    · rcases hst with hst | hst
      · exact absurd hst hstage.1
      · exact absurd hst hstage.2

theorem Prompt.proposed (h : Prompt s) {data : List UInt8}
    {out : Option (Output (List UInt8 × List LogEntry))}
    (hrun : s.raft.run (stateMachine json).audited n (.propose data) = some (r, out)) :
    Prompt { s with raft := r } := by
  refine h.onward (run_onward hrun).2 fun {m inc x} hx => ?_
  rcases run_trace hrun hx with hold | ⟨_, hi, _⟩
  · exact hold
  · cases hi

theorem Prompt.applied (h : Prompt s) {e : LogEntry} (hidle : (s.servers n).firing = .idle)
    (hrun : s.raft.run (stateMachine json).audited n .applier = some (r, some (.applied e))) :
    Prompt (({ s with raft := r } : KvSystem).setFiring n (.taking e)) := by
  have hinc := (run_onward hrun).2
  refine ⟨Recent.onward h.recent fun m => (hinc m).ge, ?_, ?_⟩
  · intro m index w x hw hx hindex
    rw [waiters_setFiring] at hw
    rw [firing_setFiring]
    rw [mem_applied] at hx
    change Observation.applied m (r.hosts m).incarnation x ∈ r.trace at hx
    rw [hinc] at hx
    rcases run_trace hrun hx with hold | ⟨rfl, _, hnew⟩
    · have hfire := h.timely hw (mem_applied.mpr hold) hindex
      split
      · rename_i hm
        rw [hm, hidle] at hfire
        cases hfire
      · exact hfire
    · cases hnew
      exact if_pos rfl
  · intro k p index term hp ha hcur hch hstage
    rw [waiters_setFiring, firing_setFiring]
    rcases h.awaited hp ha ((hinc p.node).symm.trans hcur) hch hstage with hw | ⟨answer, hs⟩
    · exact Or.inl hw
    · refine Or.inr ⟨answer, ?_⟩
      rw [if_neg]
      · exact hs
      · intro hn
        rw [hn, hidle] at hs
        cases hs

theorem Prompt.taken (h : Prompt s) {e : LogEntry} (answer : Answer)
    (hfire : (s.servers n).firing = .taking e) (hw : (s.servers n).waiters e.index = some w) :
    Prompt ((s.setWaiter n e.index none).setFiring n (.sending w.ch answer)) := by
  refine ⟨h.recent, ?_, ?_⟩
  · intro m index w' x hw' hx hindex
    rw [waiters_setFiring] at hw'
    obtain ⟨hne, hw'⟩ := erased_cases hw'
    have htaking := h.timely hw' hx hindex
    rw [firing_setFiring, firing_setWaiter]
    split
    · rename_i hm
      subst hm
      rw [hfire] at htaking
      cases htaking
      exact absurd ⟨rfl, hindex.symm⟩ hne
    · exact htaking
  · intro k p index term hp ha hcur hch hstage
    rw [waiters_setFiring, firing_setFiring, firing_setWaiter, waiters_setWaiter]
    rcases h.awaited hp ha hcur hch hstage with hslot | ⟨answer', hs⟩
    · split
      · rename_i hsame
        rw [hsame.1, hsame.2, hw] at hslot
        cases hslot
        exact Or.inr ⟨answer, if_pos hsame.1⟩
      · exact Or.inl hslot
    · refine Or.inr ⟨answer', ?_⟩
      rw [if_neg]
      · exact hs
      · intro hn
        rw [hn, hfire] at hs
        cases hs

theorem Prompt.erase (h : Prompt s) (n : NodeId) (i : ℕ)
    (hclosed : ∀ w p, (s.servers n).waiters i = some w → s.proposals[w.ch]? = some p →
      p.ch = none → ¬(p.stage = .waiting ∨ p.stage = .givingUp)) :
    Prompt (s.setWaiter n i none) := by
  refine ⟨h.recent, ?_, ?_⟩
  · intro m index w e hw he hindex
    rw [firing_setWaiter]
    exact h.timely (erased_cases hw).2 he hindex
  · intro k p index term hp ha hcur hch hstage
    rw [firing_setWaiter, waiters_setWaiter]
    rcases h.awaited hp ha hcur hch hstage with hslot | hs
    · rw [if_neg]
      · exact Or.inl hslot
      · rintro ⟨hn, hi⟩
        rw [hn, hi] at hslot
        exact hclosed _ p hslot hp hch hstage
    · exact Or.inr hs

theorem Prompt.park (h : Prompt s) {index term : ℕ} (hk : s.proposals[k]? = some p)
    (happ : p.appended = some (index, term)) (hfree : (s.servers p.node).waiters index = none)
    (hok : ∀ e ∈ s.applied p.node, e.index = index → (s.servers p.node).firing = .taking e) :
    Prompt { s.setWaiter p.node index (some ⟨term, k⟩) with
      proposals := s.proposals.modify k fun p => { p with stage := .waiting } } := by
  have hwaiters : ∀ {m j}, ((s.setWaiter p.node index (some ⟨term, k⟩)).servers m).waiters j =
      if m = p.node ∧ j = index then some ⟨term, k⟩ else (s.servers m).waiters j :=
    waiters_setWaiter
  have hfiring : ∀ {m}, ((s.setWaiter p.node index (some ⟨term, k⟩)).servers m).firing =
      (s.servers m).firing := firing_setWaiter
  refine ⟨Recent.modify h.recent k (fun _ => rfl) fun _ => rfl, ?_, ?_⟩
  · intro m j w e hw he hindex
    refine hfiring.trans ?_
    have hw := hwaiters.symm.trans hw
    split at hw
    · rename_i hslot
      rw [hslot.1] at he ⊢
      exact hok e he (hindex.trans hslot.2)
    · exact h.timely hw he hindex
  · intro j q i' τ hq ha hcur hch hstage
    rcases getElem?_modify_cases hq with ⟨rfl, x, hx, rfl⟩ | ⟨_, hq⟩
    · cases hk.symm.trans hx
      cases happ.symm.trans ha
      exact Or.inl (hwaiters.trans (if_pos ⟨rfl, rfl⟩))
    · rcases h.awaited hq ha hcur hch hstage with hslot | ⟨answer, hs⟩
      · refine Or.inl (hwaiters.trans ?_)
        rw [if_neg]
        · exact hslot
        · rintro ⟨hn, hi⟩
          rw [hn, hi, hfree] at hslot
          cases hslot
      · exact Or.inr ⟨answer, hfiring.trans hs⟩

theorem Prompt.registered (h : Prompt s) (htend : Tended s) {index term : ℕ}
    (hk : s.proposals[k]? = some p) (happ : p.appended = some (index, term))
    (hprop : p.stage = .proposed) (hok : Timely s (.register k))
    (hreg : s.register k p index term = some t) : Prompt t := by
  obtain ⟨ps, hps, rfl⟩ := register_cases hreg
  obtain ⟨hk', hdisplaced⟩ : ps[k]? = some p ∧
      Prompt { s.setWaiter p.node index none with proposals := ps } := by
    cases hps with
    | free hnone =>
      refine ⟨hk, h.erase p.node index fun w _ hw => ?_⟩
      rw [hnone] at hw
      cases hw
    | answered old q hold hq _ =>
      refine ⟨?_, ?_⟩
      · rw [List.getElem?_set_ne]
        · exact hk
        · intro hch
          exact htend.not_proposed hold (hch ▸ hk) hprop
      · have hset := h.set hq { q with ch := some .notLeader } rfl rfl rfl (by rintro ⟨⟩)
        refine hset.erase p.node index fun w q' hw hq' hch => ?_
        cases hold.symm.trans hw
        rcases getElem?_set_cases hq' with ⟨_, rfl⟩ | ⟨hne, _⟩
        · cases hch
        · exact absurd rfl hne
  have hfree : ((s.setWaiter p.node index none).servers p.node).waiters index = none := by
    rw [waiters_setWaiter, if_pos ⟨rfl, rfl⟩]
  have hpark := hdisplaced.park hk' happ hfree fun e he hindex => by
    change ((s.setWaiter p.node index none).servers p.node).firing = _
    rw [firing_setWaiter]
    exact hok p hk _ happ e he hindex
  simpa only [KvSystem.setWaiter, KvSystem.setServer, update_self, update_idem] using hpark

theorem Prompt.moved (h : Prompt s) (htend : Tended s) {e : KvEvent} (hok : Timely s e)
    (hm : Moved json c settings s e t) : Prompt t := by
  cases hm with
  | raft e raft hdirect hb hraft =>
    refine h.onward (fun m => (step_onward hraft).2 m (hb m)) fun {m inc x} hx => ?_
    rcases step_applied hraft hx with hold | rfl
    · exact hold
    · cases hdirect
  | boot n raft hraft => exact h.boot hraft
  | applier n raft out hne hrun =>
    refine h.onward (run_onward hrun).2 fun {m inc x} hx => ?_
    rcases run_trace hrun hx with hold | ⟨_, _, hout⟩
    · exact hold
    · exact absurd hout (hne x)
  | applied n raft e hidle hrun => exact h.applied hidle hrun
  | missed n e hfire hnone =>
    refine h.setFiring n .idle ?_ ?_
    · intro index w x hw hx hindex
      have htaking := h.timely hw hx hindex
      rw [hfire] at htaking
      cases htaking
      rw [← hindex, hnone] at hw
      cases hw
    · intro k answer hs
      rw [hfire] at hs
      cases hs
  | taken n e w hfire hw =>
    have htaken := h.taken (if w.term = e.term then .ok else .notLeader) hfire hw
    simpa only [KvSystem.setWaiter, KvSystem.setFiring, KvSystem.setServer, update_self,
      update_idem] using htaken
  | sent n k answer t hfire hs =>
    obtain ⟨p, hp, _, rfl⟩ := sendTo_cases hs
    have hset := h.set hp { p with ch := some answer } rfl rfl rfl (by rintro ⟨⟩)
    refine hset.setFiring n .idle ?_ ?_
    · intro index w e hw he hindex
      have htaking := h.timely hw he hindex
      rw [hfire] at htaking
      cases htaking
    · intro k' answer' hs' q hq
      cases hfire.symm.trans hs'
      rcases getElem?_set_cases hq with ⟨_, rfl⟩ | ⟨hne, _⟩
      · exact Option.some_ne_none _
      · exact absurd rfl hne
  | refused n cmd err => exact h.append rfl ⟨by rintro ⟨⟩, by rintro ⟨⟩⟩
  | appended n cmd data raft index term _ hrun =>
    exact (h.proposed hrun).append ((run_onward hrun).2 n).symm ⟨by rintro ⟨⟩, by rintro ⟨⟩⟩
  | rejected n cmd data raft hrun =>
    exact (h.proposed hrun).append ((run_onward hrun).2 n).symm ⟨by rintro ⟨⟩, by rintro ⟨⟩⟩
  | failed n cmd data raft out hrun => exact h.proposed hrun
  | registered k p index term t hk happ _ hstage hreg =>
    exact h.registered htend hk happ hstage hok hreg
  | received k p answer hk _ hch =>
    exact h.set hk _ rfl rfl rfl (by rintro _ (hst | hst) <;> cases hst)
  | expired k p hk hstage => exact h.set hk _ rfl rfl rfl fun hch _ => ⟨hch, Or.inl hstage⟩
  | gaveUp k p index term hk happ _ =>
    have hset := h.set hk { p with stage := .returned .contextDone } rfl rfl rfl
      (by rintro _ (hst | hst) <;> cases hst)
    refine hset.erase p.node index fun w q hw hq _ hst => ?_
    rcases getElem?_set_cases hq with ⟨_, rfl⟩ | ⟨hne, _⟩
    · rcases hst with hst | hst <;> cases hst
    · exact hne (hok p hk _ happ w hw)

theorem prompt_init : Prompt KvSystem.init :=
  ⟨by rintro _ ⟨⟩, by rintro _ _ _ _ ⟨⟩, by rintro _ _ _ _ ⟨⟩⟩

/-- No acknowledgment is lost: no waiter is in the map at an index that this server has
applied, unless `Apply` is just about to look for it; and an unanswered call whose index has
been applied is being answered. -/
theorem no_lost_acknowledgment (json : Json) (c : ValidCluster) (settings : NodeId → Config)
    {s : KvSystem} (hrun : Runs (KvSystem.step json c settings) Timely KvSystem.init s) :
    (∀ n index w, (s.servers n).waiters index = some w → ∀ e ∈ s.applied n, e.index = index →
      (s.servers n).firing = .taking e) ∧
    ∀ k p index term, s.proposals[k]? = some p → p.appended = some (index, term) →
      (s.raft.hosts p.node).incarnation = p.incarnation → Unanswered s k →
      ∀ e ∈ s.applied p.node, e.index = index →
        (s.servers p.node).firing = .taking e ∨
          ∃ answer, (s.servers p.node).firing = .sending k answer := by
  obtain ⟨_, _, h⟩ : Sound json c settings False s ∧ Tended s ∧ Prompt s := by
    refine hrun.invariant (P := fun s => Sound json c settings False s ∧ Tended s ∧ Prompt s)
      ⟨.init, tended_init, prompt_init⟩ ?_
    rintro u e v ⟨hsound, htend, hprompt⟩ hok hst
    have hm := moved_of_step hst
    exact ⟨hsound.moved False.elim hm, htend.moved hsound hm, hprompt.moved htend hok hm⟩
  refine ⟨fun n index w hw e he => h.timely hw he, ?_⟩
  rintro k p index term hp ha hcur ⟨q, hq, hch, hstage⟩ e he hindex
  cases hp.symm.trans hq
  rcases h.awaited hp ha hcur hch hstage with hslot | hs
  · exact Or.inl (h.timely hslot he hindex)
  · exact Or.inr hs

def trioFires : List KvEvent :=
  trioStarts ++ ([.raft (.act "n1" .electionTimeout), .raft (.deliver 0), .raft (.receive 0),
    .propose "n1" ⟨.put, "k", "1"⟩, .raft (.act "n1" (.replicate 1)), .raft (.deliver 2),
    .raft (.receive 1), .applier "n1", .applier "n1", .register 0,
    .propose "n1" ⟨.put, "k", "2"⟩, .register 1, .take "n1"] : List KvEvent)

theorem no_lost_acknowledgment_trio :
    ∃ s p, kvExec (fun s e => decide (Timely s e)) KvSystem.init trioFires = some s ∧
      s.proposals[0]? = some p ∧ p.appended = some (1, 1) ∧
      (s.raft.hosts "n1").incarnation = p.incarnation ∧ p.node = "n1" ∧ Unanswered s 0 ∧
      ⟨1, 1, plainJson.marshalCommand ⟨.put, "k", "1"⟩⟩ ∈ s.applied "n1" ∧
      (∀ w, (s.servers "n1").waiters 2 = some w → ∀ e ∈ s.applied "n1", e.index = 2 →
        (s.servers "n1").firing = .taking e) ∧
      ((s.servers "n1").firing = .taking ⟨1, 1, plainJson.marshalCommand ⟨.put, "k", "1"⟩⟩ ∨
        ∃ answer, (s.servers "n1").firing = .sending 0 answer) := by
  have hrun : ((kvExec (fun s e => decide (Timely s e)) KvSystem.init trioFires).bind fun s =>
      s.proposals[0]?.map fun p => decide (p.appended = some (1, 1) ∧
        (s.raft.hosts "n1").incarnation = p.incarnation ∧ p.node = "n1" ∧ Unanswered s 0 ∧
        ⟨1, 1, plainJson.marshalCommand ⟨.put, "k", "1"⟩⟩ ∈ s.applied "n1")) = some true := by
    decide +kernel
  obtain ⟨s, hs, hrest⟩ := Option.bind_eq_some_iff.mp hrun
  obtain ⟨p, hp, hfacts⟩ := Option.map_eq_some_iff.mp hrest
  obtain ⟨ha, hcur, hn, hun, he⟩ := of_decide_eq_true hfacts
  obtain ⟨htimely, hanswered⟩ := no_lost_acknowledgment plainJson trio noSettings
    (runs_of_exec (fun _ _ h => of_decide_eq_true h) _ hs)
  have hfire := hanswered 0 p 1 1 hp ha (by rw [hn]; exact hcur) hun _ (by rw [hn]; exact he) rfl
  rw [hn] at hfire
  exact ⟨s, p, hs, hp, ha, hcur, hn, hun, he, htimely "n1" 2, hfire⟩

/-- The entry is committed, applied and looked up before the call registers. -/
def appliedBeforeRegistered : List KvEvent :=
  trioStarts ++ ([.raft (.act "n1" .electionTimeout), .raft (.deliver 0), .raft (.receive 0),
    .propose "n1" ⟨.put, "k", "1"⟩, .raft (.act "n1" (.replicate 1)), .raft (.deliver 2),
    .raft (.receive 1), .applier "n1", .applier "n1", .take "n1", .register 0] : List KvEvent)

/-- The waiter stays in the map at an applied index, and its call hears nothing. -/
theorem waiter_left_behind :
    ∃ s, kvExec (fun _ _ => true) KvSystem.init appliedBeforeRegistered = some s ∧
      (s.servers "n1").waiters 1 = some ⟨1, 0⟩ ∧ Unanswered s 0 ∧
      ⟨1, 1, plainJson.marshalCommand ⟨.put, "k", "1"⟩⟩ ∈ s.applied "n1" ∧
      (s.servers "n1").firing = .idle := by
  have hrun : ((kvExec (fun _ _ => true) KvSystem.init appliedBeforeRegistered).map fun s =>
      decide ((s.servers "n1").waiters 1 = some ⟨1, 0⟩ ∧ Unanswered s 0 ∧
        ⟨1, 1, plainJson.marshalCommand ⟨.put, "k", "1"⟩⟩ ∈ s.applied "n1" ∧
        (s.servers "n1").firing = .idle)) = some true := by
    decide +kernel
  obtain ⟨s, hs, hfacts⟩ := Option.map_eq_some_iff.mp hrun
  exact ⟨s, hs, of_decide_eq_true hfacts⟩

end Kv
