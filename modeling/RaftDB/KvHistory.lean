import RaftDB.KvSnapshots
import RaftDB.RaftOrigins
import RaftDB.RaftProgress

/-!
# The history of a store

The calls of `propose` in the order in which they were made: each keeps what it appended, and no
two of them share an index and a term. A store, with the entries that went into it, is the result
of these entries, and each of them was proposed by a call. So an OK is final.
-/
namespace Raft

variable {σ D : Type} {M : StateMachine σ D}

def Represents.audited (R : Represents M) : Represents M.audited where
  state l s := R.state l s.1 ∧ s.2 = l
  data l d := R.data l d.1 ∧ d.2 = l
  init := ⟨R.init, rfl⟩
  apply e h := ⟨R.apply e h.1, congrArg (· ++ [e]) h.2⟩
  snapshot h hd := by
    obtain ⟨data, hdata, rfl⟩ := Option.map_eq_some_iff.mp hd
    exact ⟨R.snapshot h.1 hdata, h.2⟩
  restore h hs := by
    obtain ⟨s, hres, rfl⟩ := Option.map_eq_some_iff.mp hs
    exact ⟨R.restore h.1 hres, h.2⟩

end Raft

namespace Kv

open Raft ClusterConfig TransitionSystem Function LogPrefix

variable {json : Json} {c : ValidCluster} {settings : NodeId → Config} {s t : KvSystem}

section Calls

variable {p p' p'' q : Proposal} {k : ℕ}

structure Keeps (p p' : Proposal) : Prop where
  node : p'.node = p.node
  incarnation : p'.incarnation = p.incarnation
  cmd : p'.cmd = p.cmd
  data : p'.data = p.data
  appended : p'.appended = p.appended
  returned : ∀ {answer}, p.stage = .returned answer → p'.stage = .returned answer

theorem Keeps.refl (p : Proposal) : Keeps p p := ⟨rfl, rfl, rfl, rfl, rfl, id⟩

theorem Keeps.trans (h : Keeps p p') (h' : Keeps p' p'') : Keeps p p'' where
  node := h'.node.trans h.node
  incarnation := h'.incarnation.trans h.incarnation
  cmd := h'.cmd.trans h.cmd
  data := h'.data.trans h.data
  appended := h'.appended.trans h.appended
  returned hs := h'.returned (h.returned hs)

def KeepsAll (ps ps' : List Proposal) : Prop :=
  ∀ (k : ℕ) p, ps[k]? = some p → ∃ p', ps'[k]? = some p' ∧ Keeps p p'

variable {ps ps' ps'' : List Proposal}

theorem KeepsAll.refl (ps : List Proposal) : KeepsAll ps ps := fun _ p hp => ⟨p, hp, .refl p⟩

theorem KeepsAll.trans (h : KeepsAll ps ps') (h' : KeepsAll ps' ps'') : KeepsAll ps ps'' := by
  intro k p hp
  obtain ⟨p', hp', hk⟩ := h k p hp
  obtain ⟨p'', hp'', hk'⟩ := h' k p' hp'
  exact ⟨p'', hp'', hk.trans hk'⟩

theorem KeepsAll.append (ps new : List Proposal) : KeepsAll ps (ps ++ new) := by
  intro k p hp
  exact ⟨p, (List.getElem?_append_left (lt_of_getElem? hp)).trans hp, .refl p⟩

theorem KeepsAll.set (hk : ps[k]? = some p) (h : Keeps p p') : KeepsAll ps (ps.set k p') := by
  intro j q hq
  by_cases hjk : k = j
  · subst hjk
    rw [hk] at hq
    cases hq
    exact ⟨p', List.getElem?_set_self (lt_of_getElem? hk), h⟩
  · exact ⟨q, (List.getElem?_set_ne hjk).trans hq, .refl q⟩

theorem KeepsAll.length_le (h : KeepsAll ps ps') : ps.length ≤ ps'.length := by
  by_contra hlt
  have hlt : ps'.length < ps.length := not_le.mp hlt
  obtain ⟨p', hp', _⟩ := h ps'.length _ (List.getElem?_eq_getElem hlt)
  exact absurd (lt_of_getElem? hp') (lt_irrefl _)

theorem sendTo_keeps {answer : Answer} (h : s.sendTo k answer = some t) :
    KeepsAll s.proposals t.proposals ∧ t.proposals.length = s.proposals.length := by
  obtain ⟨p, hp, _, rfl⟩ := sendTo_cases h
  exact ⟨.set hp ⟨rfl, rfl, rfl, rfl, rfl, id⟩, List.length_set⟩

theorem register_keeps {index term : ℕ} (hk : s.proposals[k]? = some p) (hst : p.stage = .proposed)
    (h : s.register k p index term = some t) :
    KeepsAll s.proposals t.proposals ∧ t.proposals.length = s.proposals.length := by
  obtain ⟨ps, hps, rfl⟩ := register_cases h
  have hdisplaced : KeepsAll s.proposals ps ∧ ps.length = s.proposals.length ∧
      ∀ {q}, ps[k]? = some q → q.stage = .proposed := by
    cases hps with
    | free =>
      refine ⟨.refl _, rfl, fun hq => ?_⟩
      cases hk.symm.trans hq
      exact hst
    | answered old q _ hq _ =>
      refine ⟨.set hq ⟨rfl, rfl, rfl, rfl, rfl, id⟩, List.length_set, fun {r} hr => ?_⟩
      rcases getElem?_set_cases hr with ⟨rfl, rfl⟩ | ⟨_, hr⟩
      · cases hk.symm.trans hq
        exact hst
      · cases hk.symm.trans hr
        exact hst
  obtain ⟨hkeeps, hlen, hstage⟩ := hdisplaced
  refine ⟨hkeeps.trans ?_, (List.length_modify ..).trans hlen⟩
  intro j q hq
  by_cases hjk : k = j
  · subst hjk
    refine ⟨{ q with stage := .waiting }, by simp [hq], rfl, rfl, rfl, rfl, rfl, ?_⟩
    intro answer hret
    rw [hstage hq] at hret
    cases hret
  · exact ⟨q, by simp [hq, hjk], .refl q⟩

theorem Moved.keeps {e : KvEvent} (h : Moved json c settings s e t) :
    KeepsAll s.proposals t.proposals ∧ (t.proposals.length = s.proposals.length ∨
      ∃ p, t.proposals = s.proposals ++ [p] ∧ ∀ {index term}, p.appended = some (index, term) →
        s.raft.run (stateMachine json).audited p.node (.propose p.data) =
          some (t.raft, some (.proposed (some (index, term))))) := by
  cases h with
  | raft | boot | applier | applied | missed | taken | failed => exact ⟨.refl _, Or.inl rfl⟩
  | sent n k answer t _ hs =>
    obtain ⟨hkeeps, hlen⟩ := sendTo_keeps hs
    exact ⟨hkeeps, Or.inl hlen⟩
  | refused n cmd err =>
    refine ⟨.append _ _, Or.inr ⟨_, rfl, ?_⟩⟩
    rintro _ _ ⟨⟩
  | rejected n cmd data raft _ =>
    refine ⟨.append _ _, Or.inr ⟨_, rfl, ?_⟩⟩
    rintro _ _ ⟨⟩
  | appended n cmd data raft index term _ hrun =>
    refine ⟨.append _ _, Or.inr ⟨_, rfl, ?_⟩⟩
    rintro _ _ ⟨⟩
    exact hrun
  | registered k p index term t hk _ _ hst hreg =>
    obtain ⟨hkeeps, hlen⟩ := register_keeps hk hst hreg
    exact ⟨hkeeps, Or.inl hlen⟩
  | received k p answer hk hst _ =>
    refine ⟨.set hk ⟨rfl, rfl, rfl, rfl, rfl, ?_⟩, Or.inl List.length_set⟩
    intro a ha
    rw [hst] at ha
    cases ha
  | expired k p hk hst =>
    refine ⟨.set hk ⟨rfl, rfl, rfl, rfl, rfl, ?_⟩, Or.inl List.length_set⟩
    intro a ha
    rw [hst] at ha
    cases ha
  | gaveUp k p index term hk _ hst =>
    refine ⟨.set hk ⟨rfl, rfl, rfl, rfl, rfl, ?_⟩, Or.inl List.length_set⟩
    intro a ha
    rw [hst] at ha
    cases ha

theorem Moved.call {e : KvEvent} (h : Moved json c settings s e t)
    (hp : t.proposals[k]? = some p) :
    (∃ q, s.proposals[k]? = some q ∧ Keeps q p) ∨
      k = s.proposals.length ∧ ∀ {index term}, p.appended = some (index, term) →
        s.raft.run (stateMachine json).audited p.node (.propose p.data) =
          some (t.raft, some (.proposed (some (index, term)))) := by
  obtain ⟨hkeeps, hnew⟩ := h.keeps
  cases hold : s.proposals[k]? with
  | some q =>
    obtain ⟨p', hp', hsame⟩ := hkeeps k q hold
    cases hp.symm.trans hp'
    exact Or.inl ⟨q, rfl, hsame⟩
  | none =>
    have hlen := List.getElem?_eq_none_iff.mp hold
    rcases hnew with heq | ⟨q, hq, hrun⟩
    · exact absurd (lt_of_getElem? hp) (by omega)
    · rw [hq] at hp
      rcases getElem?_concat hp with hp | ⟨hk, rfl⟩
      · rw [hold] at hp
        cases hp
      · exact Or.inr ⟨hk, hrun⟩

theorem keeps_of_runs (h : Runs (KvSystem.step json c settings) Always s t) :
    KeepsAll s.proposals t.proposals := by
  induction h with
  | refl => exact .refl _
  | tail _ _ hst ih => exact ih.trans (moved_of_step hst).keeps.1

end Calls

section Assignment

open ReplicatedLog

variable {a : Abstract} {p q : Proposal} {k : ℕ} {index term : ℕ}

/-- What a later call appends, the leader of the term did not have before. -/
theorem assigned_after (ha : Accounts (stateMachine json).audited c settings s.raft a)
    (h : Runs (KvSystem.step json c settings) Always s t) (hk : s.proposals.length ≤ k)
    (hp : t.proposals[k]? = some p) (happ : p.appended = some (index, term)) :
    (a.leaderLog term).length < index := by
  induction h generalizing p with
  | refl => exact absurd (lt_of_getElem? hp) (not_lt.mpr hk)
  | tail hu _ hst ih =>
    rcases (moved_of_step hst).call hp with ⟨q, hq, hsame⟩ | ⟨_, hrun⟩
    · exact ih hq (hsame.appended.symm.trans happ)
    · obtain ⟨a', hg, ha'⟩ := exists_later_account ha (raftRuns_of_runs hu)
      rw [ha'.proposed_next (hrun happ)]
      exact Nat.lt_succ_of_le (hg.leaderLog term).length_le

theorem held_assigned {r : RaftSystem} {e : LogEntry} (h : WasHeld json c settings r e) :
    ∃ a, Accounts (stateMachine json).audited c settings r a ∧
      e.index ≤ (a.leaderLog e.term).length := by
  obtain ⟨r₀, n, q, hr₀, hlater, hq, hmem⟩ := h
  obtain ⟨a₀, ha₀⟩ := exists_account hr₀
  obtain ⟨a, hg, ha⟩ := exists_later_account ha₀ hlater
  obtain ⟨b, hb⟩ := ha₀.segment (Or.inl ⟨n, q, hq, rfl⟩)
  obtain ⟨i, hi, he⟩ := (hb.located ha₀.indexed hmem).mono hg
  exact ⟨a, ha, by rw [hi]; exact lt_of_getElem? he⟩

/-- Index and term belong to one call. -/
theorem assigned_once (h : Runs (KvSystem.step json c settings) Always KvSystem.init s) {j k : ℕ}
    (hjk : j < k) (hj : s.proposals[j]? = some p) (hk : s.proposals[k]? = some q)
    (hp : p.appended = some (index, term)) : q.appended ≠ some (index, term) := by
  intro hq
  induction h generalizing p q with
  | refl => cases hj
  | tail hu _ hst ih =>
    have hmoved := moved_of_step hst
    have hlt := lt_of_getElem? hk
    rcases hmoved.call hj with ⟨p₀, hj₀, hsame⟩ | ⟨hnew, _⟩
    · have hp₀ := hsame.appended.symm.trans hp
      rcases hmoved.call hk with ⟨q₀, hk₀, hsame'⟩ | ⟨_, hrun⟩
      · exact ih hj₀ hk₀ hp₀ (hsame'.appended.symm.trans hq)
      · have hsound : Sound json c settings False _ := .of_runs (fun _ => False.elim) hu
        obtain ⟨_, hheld⟩ := (hsound.proposals p₀ (List.mem_of_getElem? hj₀)).held hp₀
        obtain ⟨a, ha, hle⟩ := held_assigned hheld
        have hnext := ha.proposed_next (hrun hq)
        dsimp only at hle
        omega
    · rcases hmoved.call hk with ⟨q₀, hk₀, _⟩ | ⟨hk', _⟩
      · have := lt_of_getElem? hk₀
        omega
      · omega

end Assignment

section Stores

variable {r : RaftSystem} {n : NodeId} {p : Proc (Store × List LogEntry) (List UInt8 × List LogEntry)}

/-- A store is the result of the entries that went into it, and they have been committed. -/
theorem store_committed (hjson : ∀ l, json.RoundTripsMap (replay json l).m)
    (hr : RaftRuns json c settings System.init r) (hp : (r.hosts n).proc = some p)
    (hstarted : p.node.started = true) :
    p.machine.1 = replay json p.machine.2 ∧ p.machine.2.length = p.progress ∧
      r.CommittedPrefix p.machine.2 := by
  obtain ⟨a, hsim, hagreed⟩ := exists_agreed_account (replays hjson).audited hr
  obtain ⟨halive, _, _⟩ := hsim.related (hsim.member hp) hp
  obtain ⟨_, hstore, hseen⟩ := halive.machine.state_at rfl (Or.inr hstarted)
  have hto := ((evidenced_of_runs hr).nodes hp).mono (Phase.progress_le halive.live.applier)
    (List.prefix_refl r.trace)
  obtain ⟨hfirst, hlen⟩ := hagreed.committedPrefix hto
  rw [hseen]
  exact ⟨hstore, hlen, hfirst⟩

theorem applied_seen (hr : RaftRuns json c settings System.init r) {inc : ℕ} {e : LogEntry}
    (he : Observation.applied n inc e ∈ r.trace) (hinc : (r.hosts n).incarnation = inc)
    (hp : (r.hosts n).proc = some p) :
    ∃ before after, before.length + 1 = e.index ∧ p.machine.2 = before ++ e :: after := by
  obtain ⟨a, _, ha⟩ := (Sim.init (stateMachine json).audit c settings False).runs
    (fun _ => False.elim) hr
  obtain ⟨i, hi, hch⟩ := ha.applied_chosen he
  subst hinc
  obtain ⟨hstarted, hle⟩ := (past_of_applied hr he).now hp
  obtain ⟨halive, _, _⟩ := ha.related (ha.member hp) hp
  obtain ⟨_, hseen⟩ := halive.machine.state_at rfl (Or.inr hstarted)
  have hat : p.machine.2[i]? = some e := by
    rw [show p.machine.2 = a.chosen.take p.progress from hseen,
      List.getElem?_take_of_lt (by omega)]
    exact hch
  obtain ⟨hlt, rfl⟩ := List.getElem?_eq_some_iff.mp hat
  refine ⟨p.machine.2.take i, p.machine.2.drop (i + 1), ?_, ?_⟩
  · rw [List.length_take, hi]
    omega
  · rw [List.getElem_cons_drop, List.take_append_drop]

end Stores

section Answers

/-- An OK is final: the server that answered has applied the command at its index, its store is
still made of it as long as the process lives, and in the rest of the run nothing else is applied
at the index, by log or inside a restored snapshot. -/
theorem no_false_ok (json : Json) (c : ValidCluster) (settings : NodeId → Config)
    {s t : KvSystem} (hs : Runs (KvSystem.step json c settings) Always KvSystem.init s)
    (hst : Runs (KvSystem.step json c settings) Always s t) {p : Proposal}
    (hp : p ∈ s.proposals) {index term : ℕ} (happ : p.appended = some (index, term))
    (hret : p.stage = .returned .ok) :
    p.cmd.encode json = .ok p.data ∧
    Observation.applied p.node p.incarnation ⟨term, index, p.data⟩ ∈ s.raft.trace ∧
    (∀ q, (t.raft.hosts p.node).incarnation = p.incarnation →
      (t.raft.hosts p.node).proc = some q →
      ∃ before after, before.length + 1 = index ∧
        q.machine.2 = before ++ ⟨term, index, p.data⟩ :: after ∧
        ((∀ l, json.RoundTripsMap (replay json l).m) → json.RoundTrips p.cmd →
          ∃ store, (replay json before).apply p.cmd = .ok store ∧
            (∀ key, store.m.lookup key = p.cmd.effect (replay json before).m key) ∧
            q.machine.1 = after.foldl (applyEntry json) store)) ∧
    (∀ m inc e, Observation.applied m inc e ∈ t.raft.trace → e.index = index →
      e.term = term ∧ e.command = p.data) ∧
    ∀ m inc data l, Observation.restored m inc (data, l) ∈ t.raft.trace → ∀ e ∈ l,
      e.index = index → e.term = term ∧ e.command = p.data := by
  have hsound : Sound json c settings False s := .of_runs (fun _ => False.elim) hs
  have hok := hsound.proposals p hp
  obtain ⟨henc, r₀, n, q, h₀, hr, hq, hmem⟩ := hok.held happ
  obtain ⟨e, he, ha⟩ := hok.returned hret
  rw [happ] at ha
  cases ha
  have heq := held_applied_eq h₀ hr hq hmem he rfl rfl
  have hlater := raftRuns_of_runs hst
  have he' := (runs_trace hlater).subset he
  rw [heq] at he he'
  have hreach := hsound.reached.trans hlater
  refine ⟨henc, he, fun q hinc hq => ?_, fun m inc x hx hindex => ?_,
    fun m inc data l hl x hx hindex => ?_⟩
  · obtain ⟨before, after, hlen, hseen⟩ := applied_seen hreach he' hinc hq
    refine ⟨before, after, hlen, hseen, fun hmaps hcmd => ?_⟩
    have hstarted := ((past_of_applied hreach he').resolve_left (by omega)).2 q hq
    have hstore := (store_committed hmaps hreach hq hstarted.1).1
    have happly : (replay json before).apply p.cmd =
        .ok (applyEntry json (replay json before) ⟨e.term, e.index, p.data⟩) :=
      applyEntry_of_encoded henc hcmd _
    refine ⟨_, happly, Store.lookup_apply happly, ?_⟩
    rw [hstore, hseen, replay, List.foldl_append, List.foldl_cons]
    rfl
  · rw [applied_agree hreach he' hx hindex]
    exact ⟨rfl, rfl⟩
  · rw [restored_agree hreach he' hl hx hindex]
    exact ⟨rfl, rfl⟩

theorem no_false_ok_trio :
    ∃ s t p q, kvExec (fun _ _ => true) KvSystem.init trioAnswers = some s ∧
      kvExec (fun _ _ => true) s trioFollows = some t ∧ p ∈ s.proposals ∧
      p.appended = some (1, 1) ∧ p.stage = .returned .ok ∧
      Observation.applied "n2" 1 ⟨1, 1, p.data⟩ ∈ t.raft.trace ∧
      (t.raft.hosts p.node).proc = some q ∧
      p.cmd.encode plainJson = .ok p.data ∧
      Observation.applied p.node p.incarnation ⟨1, 1, p.data⟩ ∈ s.raft.trace ∧
      (∃ before after store, before.length + 1 = 1 ∧
        q.machine.2 = before ++ ⟨1, 1, p.data⟩ :: after ∧
        (replay plainJson before).apply p.cmd = .ok store ∧
        store.m.lookup "k" = some "1" ∧ q.machine.1 = after.foldl (applyEntry plainJson) store) ∧
      (∀ m inc e, Observation.applied m inc e ∈ t.raft.trace → e.index = 1 →
        e.term = 1 ∧ e.command = p.data) ∧
      ∀ m inc data l, Observation.restored m inc (data, l) ∈ t.raft.trace → ∀ e ∈ l,
        e.index = 1 → e.term = 1 ∧ e.command = p.data := by
  have hrun : ((kvExec (fun _ _ => true) KvSystem.init trioAnswers).bind fun s =>
      (kvExec (fun _ _ => true) s trioFollows).bind fun t => (t.raft.hosts "n1").proc.map fun _ =>
        decide ((⟨"n1", 1, ⟨.put, "k", "1"⟩, plainJson.marshalCommand ⟨.put, "k", "1"⟩,
          some (1, 1), .returned .ok, none⟩ : Proposal) ∈ s.proposals ∧
        (t.raft.hosts "n1").incarnation = 1 ∧
        Observation.applied "n2" 1 ⟨1, 1, plainJson.marshalCommand ⟨.put, "k", "1"⟩⟩
          ∈ t.raft.trace)) = some true := by
    decide +kernel
  obtain ⟨s, hs, hrun⟩ := Option.bind_eq_some_iff.mp hrun
  obtain ⟨t, ht, hrun⟩ := Option.bind_eq_some_iff.mp hrun
  obtain ⟨q, hq, hfacts⟩ := Option.map_eq_some_iff.mp hrun
  obtain ⟨hp, hinc, happ⟩ := of_decide_eq_true hfacts
  obtain ⟨henc, hown, hstore, hrest⟩ :=
    no_false_ok plainJson trio noSettings (runs_of_exec (fun _ _ _ => trivial) _ hs)
      (runs_of_exec (fun _ _ _ => trivial) _ ht) hp rfl rfl
  obtain ⟨before, after, hlen, hseen, hbuilt⟩ := hstore q hinc hq
  obtain ⟨store, happly, heffect, hmachine⟩ := hbuilt (fun _ => goJson_roundTripsMap _)
    (goJson_roundTrips (by rintro _ ⟨⟩))
  exact ⟨s, t, _, q, hs, ht, hp, rfl, rfl, happ, hq, henc, hown,
    ⟨before, after, store, hlen, hseen, happly, heffect "k", hmachine⟩, hrest⟩

end Answers


section Sources

variable {e : LogEntry}

def KvSystem.Proposed (json : Json) (s : KvSystem) (e : LogEntry) : Prop :=
  ∃ p ∈ s.proposals, p.appended = some (e.index, e.term) ∧ p.data = e.command ∧
    p.cmd.encode json = .ok e.command

theorem KvSystem.Proposed.keeps (h : s.Proposed json e)
    (hk : KeepsAll s.proposals t.proposals) : t.Proposed json e := by
  obtain ⟨p, hp, happ, hdata, henc⟩ := h
  obtain ⟨k, hk'⟩ := List.getElem?_of_mem hp
  obtain ⟨p', hp', hsame⟩ := hk k p hk'
  exact ⟨p', List.mem_of_getElem? hp', hsame.appended.trans happ, hsame.data.trans hdata,
    hsame.cmd ▸ henc⟩

theorem submit_cases {n : NodeId} {cmd : Command} (h : s.submit json n cmd = some t) :
    t.raft = s.raft ∨ ∃ data out, cmd.encode json = .ok data ∧
      s.raft.run (stateMachine json).audited n (.propose data) = some (t.raft, out) ∧
      ∀ index term, out = some (.proposed (some (index, term))) →
        t.Proposed json ⟨term, index, data⟩ := by
  rw [KvSystem.submit] at h
  split at h
  · cases h
  split at h
  · cases h
    exact Or.inl rfl
  rename_i data henc
  right
  split at h
  · rename_i raft appended hrun
    cases h
    refine ⟨data, _, henc, hrun, ?_⟩
    rintro index term ⟨⟩
    exact ⟨_, List.mem_append_right _ (List.mem_singleton_self _), rfl, rfl, henc⟩
  · rename_i raft hrun
    cases h
    exact ⟨data, _, henc, hrun, by rintro _ _ ⟨⟩⟩
  · rename_i raft out hne _ hrun
    cases h
    refine ⟨data, out, henc, hrun, ?_⟩
    rintro index term rfl
    exact absurd rfl (hne _)
  · cases h

theorem sourced_of_run {r : RaftSystem} {P : LogEntry → Prop} {n : NodeId}
    {i : Input (List UInt8 × List LogEntry)} {out : Option (Output (List UInt8 × List LogEntry))}
    (hr : RaftRuns json c settings System.init s.raft) (h : s.raft.Sourced P)
    (hi : i.internal = true) (hrun : s.raft.run (stateMachine json).audited n i = some (r, out))
    (hnew : ∀ data p, i = .propose data → (s.raft.hosts n).proc = some p →
      p.node.state = .leader →
        P ⟨p.node.currentTerm, p.node.log.lastLogIndex + 1, data⟩) : r.Sourced P := by
  have hst : s.raft.step (stateMachine json).audited c settings (.act n i) = some r := by
    rw [System.step, if_pos hi, hrun]
    rfl
  refine h.step hr hst ?_
  rintro _ data p ⟨⟩
  exact hnew data p rfl

/-- Every entry that is on file, on its way or committed was appended by a call. -/
theorem sourced_of_runs (h : Runs (KvSystem.step json c settings) Always KvSystem.init s) :
    s.raft.Sourced (s.Proposed json) := by
  induction h with
  | refl => exact System.sourced_init
  | @tail u v e hu _ hst ih =>
    have hr := raftRuns_of_runs hu
    have hmoved := moved_of_step hst
    have hkept : u.raft.Sourced (v.Proposed json) := ih.mono fun h => h.keeps hmoved.keeps.1
    cases e with
    | propose n cmd =>
      rcases submit_cases hst with hsame | ⟨data, out, _, hrun, hrec⟩
      · rw [hsame]
        exact hkept
      · obtain ⟨p, x, hp, rfl, hlead⟩ := run_returns hr hrun
        refine sourced_of_run hr hkept rfl hrun ?_
        rintro _ q ⟨⟩ hq hl
        cases hp.symm.trans hq
        exact hrec _ _ (congrArg _ (congrArg _ (hlead hl)))
    | raft e =>
      cases hmoved with
      | raft _ raft hdirect _ hraft =>
        refine hkept.step hr hraft ?_
        rintro _ _ _ rfl
        cases hdirect
      | boot n raft hraft =>
        refine hkept.step hr hraft ?_
        rintro _ _ _ ⟨⟩
    | applier n =>
      cases hmoved with
      | applier _ raft out _ hrun | applied _ raft e _ hrun =>
        refine sourced_of_run hr hkept rfl hrun ?_
        rintro _ _ ⟨⟩
    | take n => cases hmoved <;> exact hkept
    | receive k => cases hmoved ; exact hkept
    | expire k => cases hmoved ; exact hkept
    | giveUp k => cases hmoved ; exact hkept
    | send n =>
      cases hmoved with
      | sent _ k answer _ _ hs =>
        obtain ⟨_, _, _, rfl⟩ := sendTo_cases hs
        exact hkept
    | register k =>
      cases hmoved with
      | registered _ p index term _ _ _ _ _ hreg =>
        obtain ⟨_, _, rfl⟩ := register_cases hreg
        exact hkept

end Sources

end Kv
