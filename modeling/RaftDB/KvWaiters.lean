import RaftDB.KvProposals
import RaftDB.RaftFrames

/-!
# The map of waiters

A waiter in the map stands for a call that has registered and has not been answered. A call
whose context has ended deletes whatever is registered under its index, also the waiter of a
later call.
-/
namespace Kv

open Raft ClusterConfig TransitionSystem LogPrefix Function

variable {json : Json} {c : ValidCluster} {settings : NodeId → Config} {clean : Prop}
  {s t : KvSystem}

section Slots

variable {n m : NodeId} {i j : ℕ} {w : Waiter} {v : Option Waiter} {firing : Firing}

def KvSystem.setWaiter (s : KvSystem) (n : NodeId) (index : ℕ) (v : Option Waiter) : KvSystem :=
  s.setServer n { s.servers n with waiters := update (s.servers n).waiters index v }

def KvSystem.setFiring (s : KvSystem) (n : NodeId) (firing : Firing) : KvSystem :=
  s.setServer n { s.servers n with firing := firing }

@[simp] theorem waiters_setFiring :
    ((s.setFiring n firing).servers m).waiters = (s.servers m).waiters := by
  by_cases hm : m = n
  · subst hm
    simp only [KvSystem.setFiring, KvSystem.setServer, update_self]
  · simp only [KvSystem.setFiring, KvSystem.setServer, update_of_ne hm]

@[simp] theorem firing_setWaiter :
    ((s.setWaiter n i v).servers m).firing = (s.servers m).firing := by
  by_cases hm : m = n
  · subst hm
    simp only [KvSystem.setWaiter, KvSystem.setServer, update_self]
  · simp only [KvSystem.setWaiter, KvSystem.setServer, update_of_ne hm]

theorem firing_setFiring : ((s.setFiring n firing).servers m).firing =
    if m = n then firing else (s.servers m).firing := by
  by_cases hm : m = n
  · subst hm
    simp only [KvSystem.setFiring, KvSystem.setServer, update_self, if_true]
  · simp only [KvSystem.setFiring, KvSystem.setServer, update_of_ne hm, if_neg hm]

theorem waiters_setWaiter : ((s.setWaiter n i v).servers m).waiters j =
    if m = n ∧ j = i then v else (s.servers m).waiters j := by
  by_cases hm : m = n
  · subst hm
    by_cases hj : j = i
    · subst hj
      simp only [KvSystem.setWaiter, KvSystem.setServer, update_self, and_self, if_true]
    · simp only [KvSystem.setWaiter, KvSystem.setServer, update_self, update_of_ne hj, hj,
        and_false, if_false]
  · simp only [KvSystem.setWaiter, KvSystem.setServer, update_of_ne hm, hm, false_and, if_false]

theorem erased_cases (h : ((s.setWaiter n i none).servers m).waiters j = some w) :
    ¬(m = n ∧ j = i) ∧ (s.servers m).waiters j = some w := by
  rw [waiters_setWaiter] at h
  split at h
  · cases h
  · rename_i hne
    exact ⟨hne, h⟩

theorem sending_cases {k : ℕ} {answer : Answer}
    (h : ((s.setFiring n firing).servers m).firing = .sending k answer) :
    firing = .sending k answer ∨ (s.servers m).firing = .sending k answer := by
  rw [firing_setFiring] at h
  split at h
  · exact Or.inl h
  · exact Or.inr h

end Slots

section Parked

/-- A waiter in the map has an unanswered call behind it, and the applier answers calls that
are no longer in the map. -/
structure Tended (s : KvSystem) : Prop where
  fresh : ∀ {k : ℕ} {p}, s.proposals[k]? = some p → p.stage = .proposed → p.ch = none
  parked : ∀ {n index w p}, (s.servers n).waiters index = some w →
    s.proposals[w.ch]? = some p → p.ch = none ∧ (p.stage = .waiting ∨ p.stage = .givingUp)
  sending : ∀ {n} {k : ℕ} {answer p}, (s.servers n).firing = .sending k answer →
    s.proposals[k]? = some p → p.stage ≠ .proposed
  apart : ∀ {n k answer m index w}, (s.servers n).firing = .sending k answer →
    (s.servers m).waiters index = some w → w.ch ≠ k

variable {n m : NodeId} {p : Proposal} {k i j : ℕ} {w w' : Waiter}

theorem Sound.slot_unique (h : Sound json c settings clean s)
    (hw : (s.servers n).waiters i = some w) (hw' : (s.servers m).waiters j = some w')
    (hch : w.ch = w'.ch) : n = m ∧ i = j := by
  obtain ⟨q, hq, hn, _, ha⟩ := (h.servers n).waiters hw
  obtain ⟨q', hq', hn', _, ha'⟩ := (h.servers m).waiters hw'
  rw [hch, hq'] at hq
  cases hq
  exact ⟨hn.symm.trans hn', congrArg Prod.fst (Option.some.inj (ha.symm.trans ha'))⟩

theorem Tended.not_proposed (h : Tended s) (hw : (s.servers n).waiters i = some w)
    (hp : s.proposals[w.ch]? = some p) : p.stage ≠ .proposed := by
  rcases (h.parked hw hp).2 with hst | hst <;> rw [hst] <;> decide

theorem Tended.shrink (h : Tended s)
    (hw : ∀ {n index w}, (t.servers n).waiters index = some w →
      (s.servers n).waiters index = some w)
    (hf : ∀ {n k answer}, (t.servers n).firing = .sending k answer →
      (s.servers n).firing = .sending k answer)
    (hps : t.proposals = s.proposals) : Tended t where
  fresh hp := h.fresh (hps ▸ hp)
  parked hwt hp := h.parked (hw hwt) (hps ▸ hp)
  sending hft hp := h.sending (hf hft) (hps ▸ hp)
  apart hft hwt := h.apart (hf hft) (hw hwt)

theorem Tended.unfire (h : Tended s) (n : NodeId) {firing : Firing}
    (hf : ∀ k answer, firing ≠ .sending k answer) : Tended (s.setFiring n firing) := by
  refine h.shrink ?_ ?_ rfl
  · intro m index w hw
    rwa [waiters_setFiring] at hw
  · intro m k answer hs
    exact (sending_cases hs).resolve_left (hf k answer)

theorem Tended.erase (h : Tended s) (n : NodeId) (i : ℕ) : Tended (s.setWaiter n i none) := by
  refine h.shrink (fun hw => (erased_cases hw).2) ?_ rfl
  intro m k answer hs
  rwa [firing_setWaiter] at hs

theorem Tended.taken (h : Tended s) (hsound : Sound json c settings clean s) (answer : Answer)
    (hw : (s.servers n).waiters i = some w) :
    Tended ((s.setWaiter n i none).setFiring n (.sending w.ch answer)) := by
  have hapart : ∀ {m index w'}, ((s.setWaiter n i none).servers m).waiters index = some w' →
      w'.ch ≠ w.ch := by
    intro m index w' hw' hch
    obtain ⟨hne, hw'⟩ := erased_cases hw'
    exact hne (hsound.slot_unique hw' hw hch)
  have he := h.erase n i
  refine ⟨he.fresh, ?_, ?_, ?_⟩
  · intro m index w' q hw' hq
    rw [waiters_setFiring] at hw'
    exact he.parked hw' hq
  · intro m k a q hs hq
    rcases sending_cases hs with hs | hs
    · cases hs
      exact h.not_proposed hw hq
    · exact he.sending hs hq
  · intro m k a m' index w' hs hw'
    rw [waiters_setFiring] at hw'
    rcases sending_cases hs with hs | hs
    · cases hs
      exact hapart hw'
    · exact he.apart hs hw'

theorem Tended.set (h : Tended s) (hk : s.proposals[k]? = some p) {p' : Proposal}
    (hpark : ∀ {n index w}, (s.servers n).waiters index = some w → w.ch = k →
      p'.ch = none ∧ (p'.stage = .waiting ∨ p'.stage = .givingUp))
    (hstage : p'.stage ≠ .proposed) :
    Tended { s with proposals := s.proposals.set k p' } := by
  refine ⟨?_, ?_, ?_, h.apart⟩
  · intro j q hq hprop
    rcases getElem?_set_cases hq with ⟨rfl, rfl⟩ | ⟨_, hq⟩
    · exact absurd hprop hstage
    · exact h.fresh hq hprop
  · intro n index w q hw hq
    rcases getElem?_set_cases hq with ⟨hj, rfl⟩ | ⟨_, hq⟩
    · exact hpark hw hj
    · exact h.parked hw hq
  · intro n j answer q hs hq
    rcases getElem?_set_cases hq with ⟨rfl, rfl⟩ | ⟨_, hq⟩
    · exact hstage
    · exact h.sending hs hq

theorem Tended.append (h : Tended s) (hsound : Sound json c settings clean s)
    (hp : p.ch = none) : Tended { s with proposals := s.proposals ++ [p] } := by
  refine ⟨?_, ?_, ?_, h.apart⟩
  · intro j q hq hprop
    rcases getElem?_concat hq with hq | ⟨_, rfl⟩
    · exact h.fresh hq hprop
    · exact hp
  · intro n index w q hw hq
    obtain ⟨q', hq', _⟩ := (hsound.servers n).waiters hw
    rcases getElem?_concat hq with hq | ⟨hj, _⟩
    · exact h.parked hw hq
    · have := lt_of_getElem? hq'
      omega
  · intro n j answer q hs hq
    obtain ⟨q', hq', _⟩ := (hsound.servers n).sending hs
    rcases getElem?_concat hq with hq | ⟨hj, _⟩
    · exact h.sending hs hq
    · have := lt_of_getElem? hq'
      omega

theorem Tended.displaced (h : Tended s) (hsound : Sound json c settings clean s)
    {ps : List Proposal} (hps : Displaces s n i ps) :
    Tended { s.setWaiter n i none with proposals := ps } := by
  cases hps with
  | free _ => exact h.erase n i
  | answered old q hold hq _ =>
    have hstage := h.not_proposed hold hq
    refine (h.erase n i).set hq ?_ hstage
    intro m index w hw hch
    obtain ⟨hne, hw⟩ := erased_cases hw
    exact absurd (hsound.slot_unique hw hold hch) hne

theorem Tended.park (h : Tended s) (n : NodeId) (i term : ℕ) (hk : s.proposals[k]? = some p)
    (hprop : p.stage = .proposed) :
    Tended { s.setWaiter n i (some ⟨term, k⟩) with
      proposals := s.proposals.modify k fun p => { p with stage := .waiting } } := by
  have hwaiters : ∀ {m index w}, ((s.setWaiter n i (some ⟨term, k⟩)).servers m).waiters index =
      some w → w.ch = k ∨ (s.servers m).waiters index = some w := by
    intro m index w hw
    rw [waiters_setWaiter] at hw
    split at hw
    · cases hw
      exact Or.inl rfl
    · exact Or.inr hw
  have hfiring : ∀ {m j answer}, ((s.setWaiter n i (some ⟨term, k⟩)).servers m).firing =
      .sending j answer → j ≠ k ∧ (s.servers m).firing = .sending j answer := by
    intro m j answer hs
    rw [firing_setWaiter] at hs
    exact ⟨fun heq => h.sending hs (heq ▸ hk) hprop, hs⟩
  refine ⟨?_, ?_, ?_, ?_⟩
  · intro j q hq hstage
    rcases getElem?_modify_cases hq with ⟨_, x, _, rfl⟩ | ⟨_, hq⟩
    · cases hstage
    · exact h.fresh hq hstage
  · intro m index w q hw hq
    rcases getElem?_modify_cases hq with ⟨_, x, hx, rfl⟩ | ⟨hj, hq⟩
    · cases hk.symm.trans hx
      have hnone := h.fresh hk hprop
      exact ⟨hnone, Or.inl rfl⟩
    · exact h.parked ((hwaiters hw).resolve_left hj) hq
  · intro m j answer q hs hq
    obtain ⟨hj, hs⟩ := hfiring hs
    rcases getElem?_modify_cases hq with ⟨heq, _⟩ | ⟨_, hq⟩
    · exact absurd heq hj
    · exact h.sending hs hq
  · intro m j answer m' index w hs hw
    obtain ⟨hj, hs⟩ := hfiring hs
    rcases hwaiters hw with hch | hw
    · rw [hch]
      exact hj.symm
    · exact h.apart hs hw

theorem Tended.registered (h : Tended s) (hsound : Sound json c settings clean s) {term : ℕ}
    (hk : s.proposals[k]? = some p) (hprop : p.stage = .proposed)
    (hreg : s.register k p i term = some t) : Tended t := by
  obtain ⟨ps, hps, rfl⟩ := register_cases hreg
  have hk' : ps[k]? = some p := by
    cases hps with
    | free => exact hk
    | answered old q hold hq _ =>
      rw [List.getElem?_set_ne]
      · exact hk
      · intro hch
        exact h.not_proposed hold (hch ▸ hk) hprop
  have hpark := (h.displaced hsound hps).park p.node i term hk' hprop
  simpa only [KvSystem.setWaiter, KvSystem.setServer, update_self, update_idem] using hpark

/-- Every step keeps the map in order. -/
theorem Tended.moved (h : Tended s) (hsound : Sound json c settings clean s) {e : KvEvent}
    (hm : Moved json c settings s e t) : Tended t := by
  cases hm with
  | raft | applier | failed => exact h.shrink id id rfl
  | boot n raft _ =>
    refine h.shrink ?_ ?_ rfl
    · intro m index w hw
      by_cases hm : m = n
      · subst hm
        simp only [update_self] at hw
        cases hw
      · simpa only [update_of_ne hm] using hw
    · intro m k answer hs
      by_cases hm : m = n
      · subst hm
        simp only [update_self] at hs
        cases hs
      · simpa only [update_of_ne hm] using hs
  | applied n raft e _ _ =>
    exact (h.shrink id id rfl : Tended { s with raft := raft }).unfire n (by rintro _ _ ⟨⟩)
  | missed n e _ _ => exact h.unfire n (by rintro _ _ ⟨⟩)
  | taken n e w _ hw =>
    have htaken := h.taken hsound (if w.term = e.term then .ok else .notLeader) hw
    simpa only [KvSystem.setWaiter, KvSystem.setFiring, KvSystem.setServer, update_self,
      update_idem] using htaken
  | sent n k answer t hfire hs =>
    obtain ⟨p, hp, _, rfl⟩ := sendTo_cases hs
    have hunfired : Tended (s.setFiring n .idle) := h.unfire n (by rintro _ _ ⟨⟩)
    have hstage := h.sending hfire hp
    refine hunfired.set hp ?_ hstage
    intro m index w hw hch
    rw [waiters_setFiring] at hw
    exact absurd hch (h.apart hfire hw)
  | refused n cmd err => exact h.append hsound rfl
  | appended n cmd data raft index term _ hrun =>
    exact (h.shrink id id rfl : Tended { s with raft := raft }).append
      (hsound.onward (raftRuns_of_run rfl hrun) (run_onward hrun).2) rfl
  | rejected n cmd data raft hrun =>
    exact (h.shrink id id rfl : Tended { s with raft := raft }).append
      (hsound.onward (raftRuns_of_run rfl hrun) (run_onward hrun).2) rfl
  | registered k p index term t hk _ _ hstage hreg => exact h.registered hsound hk hstage hreg
  | received k p answer hk _ hch =>
    refine h.set hk ?_ (by rintro ⟨⟩)
    rintro n index w hw rfl
    rw [(h.parked hw hk).1] at hch
    cases hch
  | expired k p hk _ =>
    refine h.set hk ?_ (by rintro ⟨⟩)
    rintro n index w hw rfl
    have hnone := (h.parked hw hk).1
    exact ⟨hnone, Or.inr rfl⟩
  | gaveUp k p index term hk happ _ =>
    have herased := h.erase p.node index
    refine herased.set hk ?_ (by rintro ⟨⟩)
    rintro m i w hw rfl
    obtain ⟨hne, hw⟩ := erased_cases hw
    obtain ⟨q, hq, hn, _, ha⟩ := (hsound.servers m).waiters hw
    cases hk.symm.trans hq
    exact absurd ⟨hn.symm, congrArg Prod.fst (Option.some.inj (ha.symm.trans happ))⟩ hne

theorem tended_init : Tended KvSystem.init :=
  ⟨by rintro _ _ ⟨⟩, by rintro _ _ _ _ ⟨⟩, by rintro _ _ _ _ ⟨⟩, by rintro _ _ _ _ _ _ ⟨⟩⟩

theorem tended_of_runs (h : Runs (KvSystem.step json c settings) Always KvSystem.init s) :
    Sound json c settings False s ∧ Tended s := by
  refine h.invariant (P := fun s => Sound json c settings False s ∧ Tended s)
    ⟨.init, tended_init⟩ ?_
  rintro u e v ⟨hsound, htend⟩ _ hst
  have hm := moved_of_step hst
  exact ⟨hsound.moved False.elim hm, htend.moved hsound hm⟩

end Parked

section GivingUp

def Registered (s : KvSystem) (k : ℕ) : Prop :=
  ∃ p ∈ s.proposals[k]?, ∃ a ∈ p.appended, (s.servers p.node).waiters a.1 = some ⟨a.2, k⟩

instance (s : KvSystem) (k : ℕ) : Decidable (Registered s k) :=
  inferInstanceAs (Decidable (∃ p ∈ s.proposals[k]?, ∃ a ∈ p.appended,
    (s.servers p.node).waiters a.1 = some ⟨a.2, k⟩))

def Unanswered (s : KvSystem) (k : ℕ) : Prop :=
  ∃ p ∈ s.proposals[k]?, p.ch = none ∧ (p.stage = .waiting ∨ p.stage = .givingUp)

instance (s : KvSystem) (k : ℕ) : Decidable (Unanswered s k) :=
  inferInstanceAs (Decidable (∃ p ∈ s.proposals[k]?,
    p.ch = none ∧ (p.stage = .waiting ∨ p.stage = .givingUp)))

/-- The slot of the call's index holds no other call's waiter. -/
def OwnSlot (s : KvSystem) (k : ℕ) : Prop :=
  ∀ p ∈ s.proposals[k]?, ∀ a ∈ p.appended, ∀ w ∈ (s.servers p.node).waiters a.1, w.ch = k

instance (s : KvSystem) (k : ℕ) : Decidable (OwnSlot s k) :=
  inferInstanceAs (Decidable (∀ p ∈ s.proposals[k]?, ∀ a ∈ p.appended,
    ∀ w ∈ (s.servers p.node).waiters a.1, w.ch = k))

theorem gaveUp_cases {k : ℕ} (h : s.step json c settings (.giveUp k) = some t) :
    ∃ p index term, s.proposals[k]? = some p ∧ p.appended = some (index, term) ∧
      t = { s.setWaiter p.node index none with
        proposals := s.proposals.set k { p with stage := .returned .contextDone } } := by
  cases moved_of_step h with
  | gaveUp k p index term hk happ _ => exact ⟨p, index, term, hk, happ, rfl⟩

/-- A call that gives up takes only its own waiter with it, exactly if no other call has
registered under its index in the meantime. -/
theorem giving_up_private_iff (json : Json) (c : ValidCluster) (settings : NodeId → Config)
    {s t : KvSystem} (hrun : Runs (KvSystem.step json c settings) Always KvSystem.init s) {k : ℕ}
    (hst : s.step json c settings (.giveUp k) = some t) :
    (∀ j, j ≠ k → Registered s j → Unanswered s j → Registered t j) ↔ OwnSlot s k := by
  obtain ⟨hsound, htend⟩ := tended_of_runs hrun
  obtain ⟨p, index, term, hk, happ, rfl⟩ := gaveUp_cases hst
  have hother : ∀ {j q}, j ≠ k → ((s.proposals.set k { p with stage := .returned .contextDone })[j]? =
      some q ↔ s.proposals[j]? = some q) := by
    intro j q hj
    rw [List.getElem?_set_ne hj.symm]
  constructor
  · intro hprivate p' hp' a ha w hw
    cases hk.symm.trans hp'
    cases happ.symm.trans ha
    by_contra hne
    obtain ⟨q, hq, hn, _, hqa⟩ := (hsound.servers p.node).waiters hw
    have hreg : Registered s w.ch := ⟨q, hq, _, hqa, by rw [hn]; exact hw⟩
    have hun : Unanswered s w.ch := ⟨q, hq, htend.parked hw hq⟩
    obtain ⟨q', hq', a', ha', hslot⟩ := hprivate w.ch hne hreg hun
    cases hq.symm.trans ((hother hne).mp hq')
    cases hqa.symm.trans ha'
    exact (erased_cases hslot).1 ⟨hn, rfl⟩
  · rintro hown j hj ⟨q, hq, a, ha, hslot⟩ _
    refine ⟨q, (hother hj).mpr hq, a, ha, ?_⟩
    change ((s.setWaiter p.node index none).servers q.node).waiters a.1 = _
    rw [waiters_setWaiter, if_neg]
    · exact hslot
    · rintro ⟨hn, hi⟩
      rw [hn, hi] at hslot
      exact hj (hown p hk _ happ _ hslot)

def trioExpires : List KvEvent :=
  trioStarts ++ ([.raft (.act "n1" .electionTimeout), .raft (.deliver 0), .raft (.receive 0),
    .propose "n1" ⟨.put, "k", "1"⟩, .register 0, .propose "n1" ⟨.put, "k", "2"⟩, .register 1,
    .expire 0] : List KvEvent)

theorem giving_up_private_trio :
    ∃ s t, kvExec (fun _ _ => true) KvSystem.init trioExpires = some s ∧
      s.step plainJson trio noSettings (.giveUp 0) = some t ∧ Registered s 1 ∧
      Unanswered s 1 ∧ OwnSlot s 0 ∧
      ∀ j, j ≠ 0 → Registered s j → Unanswered s j → Registered t j := by
  have hrun : ((kvExec (fun _ _ => true) KvSystem.init trioExpires).bind fun s =>
      (s.step plainJson trio noSettings (.giveUp 0)).map fun _ =>
        decide (Registered s 1 ∧ Unanswered s 1 ∧ OwnSlot s 0)) = some true := by
    decide +kernel
  obtain ⟨s, hs, hrest⟩ := Option.bind_eq_some_iff.mp hrun
  obtain ⟨t, ht, hfacts⟩ := Option.map_eq_some_iff.mp hrest
  obtain ⟨hreg, hun, hown⟩ := of_decide_eq_true hfacts
  exact ⟨s, t, hs, ht, hreg, hun, hown,
    (giving_up_private_iff _ _ _ (runs_of_exec (fun _ _ _ => trivial) _ hs) ht).mpr hown⟩

/-- The context of a call of term 1 ends. Before it takes the lock, its entry is overwritten,
and in term 3 the same member proposes and registers under the same index again. -/
def expiredThenReproposed : List KvEvent :=
  trioStarts ++ ([
    .raft (.act "n1" .electionTimeout), .raft (.deliver 1), .raft (.receive 0),
    .propose "n1" ⟨.put, "k", "1"⟩, .propose "n1" ⟨.put, "k", "2"⟩, .register 1, .expire 1,
    .raft (.act "n2" .electionTimeout), .raft (.act "n2" .electionTimeout), .raft (.deliver 5),
    .raft (.receive 1), .propose "n2" ⟨.put, "k", "3"⟩, .raft (.act "n2" (.replicate 2)),
    .raft (.deliver 6),
    .raft (.act "n1" .electionTimeout), .raft (.deliver 8), .raft (.receive 3),
    .propose "n1" ⟨.put, "k", "4"⟩, .register 3] : List KvEvent)

/-- The old call deletes the waiter of the new one. -/
theorem gives_up_another :
    ∃ s t, kvExec (fun _ _ => true) KvSystem.init expiredThenReproposed = some s ∧
      s.step plainJson trio noSettings (.giveUp 1) = some t ∧ Registered s 3 ∧
      Unanswered s 3 ∧ ¬Registered t 3 := by
  have hrun : ((kvExec (fun _ _ => true) KvSystem.init expiredThenReproposed).bind fun s =>
      (s.step plainJson trio noSettings (.giveUp 1)).map fun t =>
        decide (Registered s 3 ∧ Unanswered s 3 ∧ ¬Registered t 3)) = some true := by
    decide +kernel
  obtain ⟨s, hs, hrest⟩ := Option.bind_eq_some_iff.mp hrun
  obtain ⟨t, ht, hfacts⟩ := Option.map_eq_some_iff.mp hrest
  exact ⟨s, t, hs, ht, of_decide_eq_true hfacts⟩

end GivingUp

end Kv
