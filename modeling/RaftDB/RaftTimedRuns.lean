import RaftDB.RaftGoroutines
import RaftDB.RaftSafety

/-!
# Timed runs

What holds of the goroutines of every node along every run. The applier does not sleep through
work, a leader has one replication loop of its term whose next round, once it runs, is never more
than a heartbeat away, and an election comes no earlier than the shortest election timeout after anything
that the timer is there to wait for.
-/
namespace Raft

open Storage ClusterConfig TransitionSystem
open RaftNode hiding id

variable {σ D : Type}

inductive TimedStep (M : StateMachine σ D) (c : ValidCluster) (settings : NodeId → Config)
    (s t : TimedSystem σ D) (n : NodeId) : Prop where
  | same : (t.sys.hosts n).proc = (s.sys.hosts n).proc → t.goroutines n = s.goroutines n →
      TimedStep M c settings s t n
  | ended : (t.sys.hosts n).proc = none → TimedStep M c settings s t n
  | booted (rn : RaftNode D) : newNode (nodeConfig c settings n) (s.sys.hosts n).disk = .ok rn →
      t.sys.hosts n = ⟨(s.sys.hosts n).disk, (s.sys.hosts n).incarnation + 1,
        some (Proc.boot M rn)⟩ → t.goroutines n = .init → TimedStep M c settings s t n
  | moved (p p' : Proc σ D) (i : Input D) (out : Output D) (r : ℕ) :
      (s.sys.hosts n).proc = some p → (t.sys.hosts n).proc = some p' → p.Handled M i p' out →
      (s.goroutines n).permits s.now i = true →
      t.goroutines n = (s.goroutines n).notify s.now r p.node i → TimedStep M c settings s t n
  | enter (p : Proc σ D) (j : ℕ) (l : Loop) : (s.sys.hosts n).proc = some p →
      (t.sys.hosts n).proc = some p → (s.goroutines n).loops[j]? = some l →
      t.goroutines n = (s.goroutines n).setStage j l
        (.round (s.now + p.node.cfg.heartbeatInterval)) → TimedStep M c settings s t n
  | round (p : Proc σ D) (j : ℕ) (l : Loop) (tick : ℕ) : (s.sys.hosts n).proc = some p →
      (t.sys.hosts n).proc = some p → (s.goroutines n).loops[j]? = some l →
      l.nextTick = some tick → t.goroutines n = (s.goroutines n).finishRound j l tick
        (decide (p.node.state = .leader ∧ p.node.currentTerm = l.term)) →
      TimedStep M c settings s t n
  | select (p : Proc σ D) (j : ℕ) (l : Loop) (tick : ℕ) (w : Wake) :
      (s.sys.hosts n).proc = some p → (t.sys.hosts n).proc = some p →
      (s.goroutines n).loops[j]? = some l → l.nextTick = some tick →
      (s.goroutines n).select s.now p.node j l tick w = some (t.goroutines n) →
      TimedStep M c settings s t n
  | sleep (p : Proc σ D) : (s.sys.hosts n).proc = some p → (t.sys.hosts n).proc = some p →
      p.idle = true → t.goroutines n = { s.goroutines n with asleep := true } →
      TimedStep M c settings s t n

section Runs

variable {M : StateMachine σ D} {c : ValidCluster} {settings : NodeId → Config}
  {s t u : TimedSystem σ D} {n : NodeId} {p : Proc σ D} {e : TimedEvent D}

theorem withLoop_some {m : NodeId} {j : ℕ} {f : Proc σ D → Loop → Option (TimedSystem σ D)}
    (h : s.withLoop m j f = some t) :
    ∃ p l, (s.sys.hosts m).proc = some p ∧ (s.goroutines m).loops[j]? = some l ∧
      f p l = some t := by
  rw [TimedSystem.withLoop] at h
  split at h
  · rename_i p l hp hl
    exact ⟨p, l, hp, hl, h⟩
  · cases h

theorem enter_some {m : NodeId} {j : ℕ} (h : s.step M c settings (.enter m j) = some t) :
    ∃ p l, (s.sys.hosts m).proc = some p ∧ (s.goroutines m).loops[j]? = some l ∧
      t = { s with
        goroutines := Function.update s.goroutines m ((s.goroutines m).setStage j l
          (.round (s.now + p.node.cfg.heartbeatInterval))) } := by
  obtain ⟨p, l, hp, hl, hf⟩ := withLoop_some h
  split at hf <;> cases hf
  exact ⟨p, l, hp, hl, rfl⟩

theorem round_some {m : NodeId} {j : ℕ} (h : s.step M c settings (.round m j) = some t) :
    ∃ p l tick sys, (s.sys.hosts m).proc = some p ∧ (s.goroutines m).loops[j]? = some l ∧
      l.nextTick = some tick ∧ s.sys.step M c settings (.act m (.replicate l.term)) = some sys ∧
      t = { s with
        sys := sys
        goroutines := Function.update s.goroutines m ((s.goroutines m).finishRound j l tick
          (decide (p.node.state = .leader ∧ p.node.currentTerm = l.term))) } := by
  obtain ⟨p, l, hp, hl, hf⟩ := withLoop_some h
  split at hf
  · rename_i tick hstage
    obtain ⟨sys, hsys, rfl⟩ := Option.map_eq_some_iff.mp hf
    exact ⟨p, l, tick, sys, hp, hl, by rw [Loop.nextTick, hstage], hsys, rfl⟩
  · cases hf

theorem select_some {m : NodeId} {j : ℕ} {w : Wake}
    (h : s.step M c settings (.select m j w) = some t) :
    ∃ p l tick g, (s.sys.hosts m).proc = some p ∧ (s.goroutines m).loops[j]? = some l ∧
      l.nextTick = some tick ∧ (s.goroutines m).select s.now p.node j l tick w = some g ∧
      t = { s with goroutines := Function.update s.goroutines m g } := by
  obtain ⟨p, l, hp, hl, hf⟩ := withLoop_some h
  split at hf
  · rename_i tick hstage
    obtain ⟨g, hg, rfl⟩ := Option.map_eq_some_iff.mp hf
    exact ⟨p, l, tick, g, hp, hl, by rw [Loop.nextTick, hstage], hg, rfl⟩
  · cases hf

theorem sleep_some {m : NodeId} (h : s.step M c settings (.sleep m) = some t) :
    ∃ p, (s.sys.hosts m).proc = some p ∧ p.idle = true ∧
      t = { s with
        goroutines := Function.update s.goroutines m { s.goroutines m with asleep := true } } := by
  simp only [TimedSystem.step] at h
  split at h
  · cases h
  rename_i p hp
  simp only [Option.ite_none_right_eq_some, Option.some.injEq] at h
  exact ⟨p, hp, h.1, h.2.symm⟩

theorem timed_update {m : NodeId} {g : Goroutines}
    (h : TimedStep M c settings s { s with goroutines := Function.update s.goroutines m g } m)
    (n : NodeId) :
    TimedStep M c settings s { s with goroutines := Function.update s.goroutines m g } n := by
  by_cases hn : n = m
  · rw [hn]
    exact h
  · refine .same rfl ?_
    simp only [Function.update_of_ne hn]

theorem notified_eq {e : Event D} {i : Input D} {r : ℕ} (hin : s.sys.inputOf e = some (n, i))
    (hp : (s.sys.hosts n).proc = some p) : s.notified r e =
      Function.update s.goroutines n ((s.goroutines n).notify s.now r p.node i) := by
  rw [TimedSystem.notified]
  · rw [hin]
    simp only [hp]
  · rintro b rfl
    cases hin

theorem timed_section {sys : System σ D} {e : Event D} {m : NodeId} {i : Input D}
    {out : Option (Output D)} {v : System σ D} {r : ℕ} (hrun : s.sys.run M m i = some (v, out))
    (hsys : sys.hosts = v.hosts) (hin : s.sys.inputOf e = some (m, i)) (hok : s.permits e = true)
    (n : NodeId) : TimedStep M c settings s
      { s with sys := sys, goroutines := s.notified r e } n := by
  obtain ⟨p, o, hp, ho, rfl, _⟩ := run_cases hrun
  have hg : s.notified r e =
      Function.update s.goroutines m ((s.goroutines m).notify s.now r p.node i) :=
    notified_eq hin hp
  by_cases hn : n = m
  · subst hn
    cases hres : o.result with
    | error err =>
      refine .ended ?_
      simp only [hsys, settle_host_error hres]
    | ok x =>
      refine .moved p x.1 i x.2 r hp ?_ (Proc.handled ho hres) ?_ ?_
      · simp only [hsys, settle_host hres]
      · rw [TimedSystem.permits, hin] at hok
        exact hok
      · simp only [hg, Function.update_self]
  · refine .same ?_ ?_
    · simp only [hsys, settle_host_of_ne hn]
    · simp only [hg, Function.update_of_ne hn]

theorem timed_raft {sys : System σ D} {e : Event D} {r : ℕ}
    (hst : s.sys.step M c settings e = some sys) (hok : s.permits e = true) (n : NodeId) :
    TimedStep M c settings s { s with sys := sys, goroutines := s.notified r e } n := by
  cases stepped_of_step hst with
  | boot m rn _ hnone hrn =>
    by_cases hn : n = m
    · subst hn
      refine .booted rn hrn ?_ ?_
      · simp only [Function.update_self]
      · simp only [TimedSystem.notified, Function.update_self]
    · refine .same ?_ ?_
      · simp only [Function.update_of_ne hn]
      · simp only [TimedSystem.notified, Function.update_of_ne hn]
  | crash m p hp =>
    by_cases hn : n = m
    · subst hn
      exact .ended (by simp only [Function.update_self])
    · refine .same ?_ rfl
      simp only [Function.update_of_ne hn]
  | act m i t out _ hx => exact timed_section hx rfl rfl hok n
  | unsaved | loaded => exact .same rfl rfl
  | ignored k call t out hk hx _ => exact timed_section hx rfl (inputOf_deliver hk) hok n
  | answered k call v out reply hk hx _ =>
    refine timed_section hx ?_ (inputOf_deliver hk) hok n
    rfl
  | received j k reply call i v out hj hk _ _ hi hx =>
    refine timed_section hx ?_ (inputOf_receive hj hk hi) hok n
    rfl

theorem timed_step (hst : s.step M c settings e = some t) (n : NodeId) :
    TimedStep M c settings s t n := by
  cases e with
  | wait d =>
    cases hst
    exact .same rfl rfl
  | raft e r =>
    simp only [TimedSystem.step, Option.ite_none_right_eq_some] at hst
    obtain ⟨hok, hmap⟩ := hst
    obtain ⟨sys, hsys, rfl⟩ := Option.map_eq_some_iff.mp hmap
    exact timed_raft hsys hok n
  | enter m j =>
    obtain ⟨p, l, hp, hl, rfl⟩ := enter_some hst
    refine timed_update (.enter p j l hp hp hl ?_) n
    simp only [Function.update_self]
  | round m j =>
    obtain ⟨p, l, tick, sys, hp, hl, htick, hsys, rfl⟩ := round_some hst
    by_cases hn : n = m
    · subst hn
      cases stepped_of_step hsys with
      | act n i t out _ hx =>
        obtain ⟨q, o, hq, ho, rfl, _⟩ := run_cases hx
        cases hp.symm.trans hq
        cases hres : o.result with
        | error err => exact .ended (by simp only [settle_host_error hres])
        | ok x =>
          obtain ⟨p', out'⟩ := x
          cases Proc.handled ho hres with
          | replicated =>
            refine .round p j l tick hp ?_ hl htick ?_
            · simp only [settle_host hres]
            · simp only [Function.update_self]
    · refine .same ?_ ?_
      · cases stepped_of_step hsys with
        | act n i t out _ hx =>
          obtain ⟨q, o, hq, ho, rfl, _⟩ := run_cases hx
          simp only [settle_host_of_ne hn]
      · simp only [Function.update_of_ne hn]
  | select m j w =>
    obtain ⟨p, l, tick, g, hp, hl, htick, hg, rfl⟩ := select_some hst
    refine timed_update (.select p j l tick w hp hp hl htick ?_) n
    simp only [Function.update_self, hg]
  | sleep m =>
    obtain ⟨p, hp, hidle, rfl⟩ := sleep_some hst
    refine timed_update (.sleep p hp hp hidle ?_) n
    simp only [Function.update_self]

theorem timed_sys (hst : s.step M c settings e = some t) :
    s.now ≤ t.now ∧ (t.sys = s.sys ∨ ∃ e', s.sys.step M c settings e' = some t.sys ∧
      ∀ m, e' = .act m .electionTimeout → ∃ r, e = .raft (.act m .electionTimeout) r) := by
  cases e with
  | wait d =>
    cases hst
    exact ⟨Nat.le_add_right _ _, Or.inl rfl⟩
  | raft e r =>
    simp only [TimedSystem.step, Option.ite_none_right_eq_some] at hst
    obtain ⟨sys, hsys, rfl⟩ := Option.map_eq_some_iff.mp hst.2
    refine ⟨le_rfl, Or.inr ⟨e, hsys, ?_⟩⟩
    intro m hm
    exact ⟨r, by rw [hm]⟩
  | enter m j =>
    obtain ⟨p, l, _, _, rfl⟩ := enter_some hst
    exact ⟨le_rfl, Or.inl rfl⟩
  | round m j =>
    obtain ⟨p, l, tick, sys, _, _, _, hsys, rfl⟩ := round_some hst
    refine ⟨le_rfl, Or.inr ⟨_, hsys, ?_⟩⟩
    intro m hm
    cases hm
  | select m j w =>
    obtain ⟨p, l, tick, g, _, _, _, _, rfl⟩ := select_some hst
    exact ⟨le_rfl, Or.inl rfl⟩
  | sleep m =>
    obtain ⟨p, _, _, rfl⟩ := sleep_some hst
    exact ⟨le_rfl, Or.inl rfl⟩

/-- A timed run is a run of the cluster. -/
theorem timed_runs {ok : TimedSystem σ D → TimedEvent D → Prop}
    (hrun : Runs (TimedSystem.step M c settings) ok s t) :
    Runs (System.step M c settings) Always s.sys t.sys := by
  induction hrun with
  | refl => exact .refl
  | tail _ _ hst ih =>
    rcases (timed_sys hst).2 with heq | ⟨e, he, _⟩
    · rwa [heq]
    · exact ih.tail trivial he

theorem timed_incarnation (hst : s.step M c settings e = some t) (n : NodeId) :
    (s.sys.hosts n).incarnation ≤ (t.sys.hosts n).incarnation := by
  rcases (timed_sys hst).2 with heq | ⟨e, he, _⟩
  · rw [heq]
  · by_cases hboot : e = .boot n
    · subst hboot
      rw [boot_incarnation he]
      exact Nat.le_succ _
    · exact ((step_onward he).2 n hboot).ge

theorem newNode_unstarted {cfg : Config} {disk : Disk D} {rn : RaftNode D}
    (h : newNode cfg disk = .ok rn) : rn.started = false ∧ rn.cfg = cfg.withDefaults := by
  obtain ⟨_, rfl⟩ := newNode_eq h
  exact ⟨rfl, rfl⟩

theorem timed_config {ok : TimedSystem σ D → TimedEvent D → Prop}
    (hrun : Runs (TimedSystem.step M c settings) ok .init s)
    (hp : (s.sys.hosts n).proc = some p) :
    p.node.cfg = (nodeConfig c settings n).withDefaults := by
  induction hrun generalizing p with
  | refl => cases hp
  | tail _ _ hst ih =>
    cases timed_step hst n with
    | same hproc _ => exact ih (hproc.symm.trans hp)
    | ended hnone => cases hnone.symm.trans hp
    | booted rn hrn hhost _ =>
      rw [hhost] at hp
      cases hp
      exact (newNode_unstarted hrn).2
    | moved q p' i out r hq hp' hh _ _ =>
      cases hp'.symm.trans hp
      exact hh.settings.cfg.trans (ih hq)
    | enter q j l hq hp' | round q j l tick hq hp' | select q j l tick w hq hp' | sleep q hq hp' =>
      cases hp'.symm.trans hp
      exact ih hq

theorem timed_sound {ok : TimedSystem σ D → TimedEvent D → Prop}
    (hrun : Runs (TimedSystem.step M c settings) ok .init s)
    (hp : (s.sys.hosts n).proc = some p) : (s.goroutines n).Sound s.now p := by
  induction hrun generalizing p with
  | refl => cases hp
  | tail _ _ hst ih =>
    refine Goroutines.Sound.later ?_ (timed_sys hst).1
    cases timed_step hst n with
    | same hproc hg =>
      rw [hg]
      exact ih (hproc.symm.trans hp)
    | ended hnone => cases hnone.symm.trans hp
    | booted rn hrn hhost hg =>
      rw [hhost] at hp
      cases hp
      rw [hg]
      exact Goroutines.init_sound (newNode_follower hrn) (newNode_unstarted hrn).1
    | moved q p' i out r hq hp' hh hok hg =>
      cases hp'.symm.trans hp
      rw [hg]
      exact (ih hq).notify hh hok r
    | enter q j l hq hp' hj hg =>
      cases hp'.symm.trans hp
      rw [hg]
      exact (ih hq).enter hj
    | round q j l tick hq hp' hj htick hg =>
      cases hp'.symm.trans hp
      rw [hg]
      exact (ih hq).finishRound hj htick
    | select q j l tick w hq hp' hj htick hg =>
      cases hp'.symm.trans hp
      exact (ih hq).select hj htick hg
    | sleep q hq hp' hidle hg =>
      cases hp'.symm.trans hp
      rw [hg]
      obtain ⟨_, hreset, htimeout, hserve⟩ := ih hq
      exact ⟨fun _ => hidle, hreset, htimeout, fun hs => (hserve hs).kept rfl rfl rfl rfl⟩

/-- The first member wins term 1 at the end of its election timeout and starts a round. -/
def timedElects : List (TimedEvent (List LogEntry)) :=
  [.raft (.boot "n1") 0, .raft (.boot "n2") 0, .raft (.boot "n3") 0, .raft (.act "n1" .start) 0,
    .raft (.act "n2" .start) 0, .raft (.act "n3" .start) 0, .sleep "n1", .wait (150 * millisecond),
    .raft (.act "n1" .electionTimeout) 0, .raft (.deliver 0) 0, .raft (.deliver 1) 0,
    .raft (.receive 0) 0, .enter "n1" 0, .round "n1" 0]

abbrev timedExec (s : TimedSystem (List LogEntry) (List LogEntry)) :
    List (TimedEvent (List LogEntry)) → Option (TimedSystem (List LogEntry) (List LogEntry)) :=
  exec (TimedSystem.step recorder trio noSettings) (fun _ _ => true) s

theorem timedExec_runs {s t : TimedSystem (List LogEntry) (List LogEntry)}
    {es : List (TimedEvent (List LogEntry))} (h : timedExec s es = some t) :
    Runs (TimedSystem.step recorder trio noSettings) Always s t :=
  runs_of_exec (fun _ _ _ => trivial) es h

/-- The applier waits for its condition only while there is nothing to do: no committed entry, no
parked snapshot and no request to stop goes unnoticed. -/
theorem applier_never_oversleeps (hrun : Runs (TimedSystem.step M c settings) Always .init s)
    (hp : (s.sys.hosts n).proc = some p) (hs : (s.goroutines n).asleep = true) :
    p.applier M = none ∧ p.node.commitIndex ≤ p.node.lastApplied ∧
      p.node.pendingSnapshot = none ∧ p.node.stopped = false := by
  obtain ⟨hph, hstart, hpend, hle, hrunning⟩ := Proc.idle_iff.mp ((timed_sound hrun hp).asleep hs)
  refine ⟨?_, hle, hpend, hrunning⟩
  simp [Proc.applier, hph, Proc.applierWake, hstart, hrunning, hpend, hle]

theorem applier_never_oversleeps_trio :
    ∃ s p, timedExec .init timedElects = some s ∧ (s.sys.hosts "n1").proc = some p ∧
      (s.goroutines "n1").asleep = true ∧ p.applier recorder = none := by
  have hrun : ((timedExec .init timedElects).any fun s =>
      (s.sys.hosts "n1").proc.any fun _ => (s.goroutines "n1").asleep) = true := by decide +kernel
  obtain ⟨s, hs, hrest⟩ := (Option.any_eq_true _ _).mp hrun
  obtain ⟨p, hp, hasleep⟩ := (Option.any_eq_true _ _).mp hrest
  exact ⟨s, p, hs, hp, hasleep, (applier_never_oversleeps (timedExec_runs hs) hp hasleep).1⟩

/-- A leader that has not been stopped has one replication loop of its term, which is due within a
heartbeat once it runs; any other loop is of an earlier term. -/
theorem leader_keeps_loop (hrun : Runs (TimedSystem.step M c settings) Always .init s)
    (hp : (s.sys.hosts n).proc = some p) (hrunning : p.node.stopped = false)
    (hlead : p.node.state = .leader) :
    ∃ before l after, (s.goroutines n).loops = before ++ l :: after ∧
      l.term = p.node.currentTerm ∧
      (∀ tick, l.nextTick = some tick → tick ≤ s.now + p.node.cfg.heartbeatInterval) ∧
      ∀ x ∈ before ++ after, x.term < p.node.currentTerm := by
  obtain ⟨hle, hnodup, _, hleader, hdue⟩ := (timed_sound hrun hp).serve hrunning
  obtain ⟨l, hl, hterm⟩ := hleader hlead
  obtain ⟨before, after, hsplit⟩ := List.append_of_mem hl
  refine ⟨before, l, after, hsplit, hterm, hdue l hl, fun x hx => ?_⟩
  have hmem : x ∈ (s.goroutines n).loops := by
    rw [hsplit]
    exact List.mem_append.mpr ((List.mem_append.mp hx).imp_right (List.mem_cons_of_mem l))
  refine lt_of_le_of_ne (hle x hmem) fun heq => ?_
  rw [hsplit, List.map_append, List.map_cons, List.nodup_middle, List.nodup_cons,
    ← List.map_append] at hnodup
  exact hnodup.1 (List.mem_map.mpr ⟨x, hx, heq.trans hterm.symm⟩)

theorem leader_keeps_loop_trio :
    ∃ s p, timedExec .init timedElects = some s ∧ (s.sys.hosts "n1").proc = some p ∧
      p.node.state = .leader ∧ ∃ before l after, (s.goroutines "n1").loops = before ++ l :: after ∧
        l.term = p.node.currentTerm ∧
        ∀ tick, l.nextTick = some tick → tick ≤ s.now + p.node.cfg.heartbeatInterval := by
  have hrun : ((timedExec .init timedElects).any fun s => (s.sys.hosts "n1").proc.any fun p =>
      decide (p.node.state = .leader ∧ p.node.stopped = false)) = true := by decide +kernel
  obtain ⟨s, hs, hrest⟩ := (Option.any_eq_true _ _).mp hrun
  obtain ⟨p, hp, hfacts⟩ := (Option.any_eq_true _ _).mp hrest
  obtain ⟨hlead, hrunning⟩ := of_decide_eq_true hfacts
  obtain ⟨before, l, after, hloops, hterm, hdue, _⟩ :=
    leader_keeps_loop (timedExec_runs hs) hp hrunning hlead
  exact ⟨s, p, hs, hp, hlead, before, l, after, hloops, hterm, hdue⟩

/-- Within an incarnation the timer is not set back behind the given time. -/
structure Since (s : TimedSystem σ D) (n : NodeId) (inc time : ℕ) : Prop where
  le : time ≤ s.now
  reset : inc < (s.sys.hosts n).incarnation ∨ (s.sys.hosts n).incarnation = inc ∧
    ∀ p, (s.sys.hosts n).proc = some p → time ≤ (s.goroutines n).electionResetAt

theorem Since.step {inc time : ℕ} (h : Since s n inc time) (hst : s.step M c settings e = some t) :
    Since t n inc time := by
  refine ⟨h.le.trans (timed_sys hst).1, ?_⟩
  have hinc := timed_incarnation hst n
  rcases h.reset with hlt | ⟨heq, hreset⟩
  · exact Or.inl (hlt.trans_le hinc)
  rcases hinc.lt_or_eq with hlt | hsame
  · exact Or.inl (heq ▸ hlt)
  refine Or.inr ⟨hsame.symm.trans heq, fun p hp => ?_⟩
  cases timed_step hst n with
  | same hproc hg =>
    rw [hg]
    exact hreset p (hproc.symm.trans hp)
  | ended hnone => cases hnone.symm.trans hp
  | booted rn _ hhost _ =>
    rw [hhost] at hsame
    exact absurd hsame (Nat.ne_of_lt (Nat.lt_succ_self _))
  | moved q p' i out r hq _ _ _ hg =>
    simp only [hg, Goroutines.notify]
    split
    · exact h.le
    · exact hreset q hq
  | enter q j l hq _ _ hg =>
    rw [hg]
    exact hreset q hq
  | round q j l tick hq _ _ _ hg =>
    rw [hg, Goroutines.finishRound]
    split <;> exact hreset q hq
  | select q j l tick w hq _ _ _ hg =>
    cases w <;>
    · simp only [Goroutines.select, Option.ite_none_right_eq_some, Option.some.injEq] at hg
      rw [← hg.2]
      exact hreset q hq
  | sleep q hq _ _ hg =>
    rw [hg]
    exact hreset q hq

theorem Since.runs {inc time : ℕ} (h : Since s n inc time)
    (hrun : Runs (TimedSystem.step M c settings) Always s t) : Since t n inc time := by
  induction hrun with
  | refl => exact h
  | tail _ _ hst ih => exact ih.step hst

theorem Since.heard {e : Event D} {r : ℕ} {i : Input D} {p' : Proc σ D} {o : StepOutcome σ D}
    {out : Output D} (hin : s.sys.inputOf e = some (n, i)) (hp : (s.sys.hosts n).proc = some p)
    (ho : p.handle M i = some o) (hx : o.result = .ok (p', out))
    (hheard : i = .start ∨ Heard p p' i out)
    (hst : s.step M c settings (.raft e r) = some t) :
    Since t n (s.sys.hosts n).incarnation s.now := by
  have hreset : p.node.resetsTimer i = true := by
    rcases hheard with rfl | hheard
    · rfl
    · exact (Proc.handled ho hx).resets hheard
  have hboot : ∀ m, e ≠ .boot m := by
    rintro m rfl
    cases hin
  simp only [TimedSystem.step, Option.ite_none_right_eq_some] at hst
  obtain ⟨sys, hsys, rfl⟩ := Option.map_eq_some_iff.mp hst.2
  refine ⟨le_rfl, Or.inr ⟨(step_onward hsys).2 n (hboot n), fun _ _ => ?_⟩⟩
  have hg : s.notified r e =
      Function.update s.goroutines n ((s.goroutines n).notify s.now r p.node i) :=
    notified_eq hin hp
  simp [hg, Goroutines.notify, hreset]

theorem election_due {r : ℕ}
    (hstand : s.step M c settings (.raft (.act n .electionTimeout) r) = some t) :
    ∃ p, (s.sys.hosts n).proc = some p ∧ p.node.started = true ∧
      (s.goroutines n).electionTimeout ≤ s.now - (s.goroutines n).electionResetAt := by
  simp only [TimedSystem.step, Option.ite_none_right_eq_some] at hstand
  obtain ⟨hdue, hmap⟩ := hstand
  obtain ⟨sys, hsys, _⟩ := Option.map_eq_some_iff.mp hmap
  cases stepped_of_step hsys with
  | act n i t out _ hx =>
    obtain ⟨p, o, hp, ho, _, _⟩ := run_cases hx
    refine ⟨p, hp, ?_, ?_⟩
    · rw [Proc.handle] at ho
      split at ho
      · cases ho
      · rename_i hidle
        simp only [Bool.or_eq_true, Bool.not_eq_true', decide_eq_true_eq, not_or] at hidle
        simpa using hidle.1
    · simpa [TimedSystem.permits, System.inputOf, Goroutines.permits] using hdue

/-- A process stands for election only when the shortest election timeout has passed since it was
started, last stood, entered a term, gave its vote or was sent something by a leader. -/
theorem elections_wait (hrun : Runs (TimedSystem.step M c settings) Always .init s) {e : Event D}
    {r r' : ℕ} {i : Input D} {p' : Proc σ D} {o : StepOutcome σ D} {out : Output D}
    (hin : s.sys.inputOf e = some (n, i)) (hp : (s.sys.hosts n).proc = some p)
    (ho : p.handle M i = some o) (hx : o.result = .ok (p', out))
    (hheard : i = .start ∨ Heard p p' i out)
    (hst : s.step M c settings (.raft e r) = some t)
    (hlater : Runs (TimedSystem.step M c settings) Always t u)
    (hinc : (u.sys.hosts n).incarnation = (s.sys.hosts n).incarnation) {v : TimedSystem σ D}
    (hstand : u.step M c settings (.raft (.act n .electionTimeout) r') = some v) :
    s.now + p.node.cfg.electionTimeoutMin ≤ u.now := by
  have hrun' : Runs (TimedSystem.step M c settings) Always .init u :=
    (hrun.tail trivial hst).trans hlater
  obtain ⟨_, hsince⟩ := (Since.heard hin hp ho hx hheard hst).runs hlater
  obtain ⟨q, hq, hstarted, hdue⟩ := election_due hstand
  have hreset := (hsince.resolve_left (by omega)).2 q hq
  obtain ⟨_, hle, htimeout, _⟩ := timed_sound hrun' hq
  have hmin := htimeout hstarted
  rw [timed_config hrun' hq, ← timed_config hrun hp] at hmin
  omega

theorem elections_wait_trio :
    ∃ s t u v, timedExec .init [.raft (.boot "n1") 0] = some s ∧
      s.step recorder trio noSettings (.raft (.act "n1" .start) 0) = some t ∧
      timedExec t [.wait (150 * millisecond)] = some u ∧
      u.step recorder trio noSettings (.raft (.act "n1" .electionTimeout) 0) = some v ∧
      s.now + 150 * millisecond ≤ u.now := by
  have hrun : ((timedExec .init [.raft (.boot "n1") 0]).any fun s =>
      ((s.sys.hosts "n1").proc.any fun p =>
        decide (p.node.cfg.electionTimeoutMin = 150 * millisecond) &&
        (p.handle recorder .start).any fun o => o.result.toOption.isSome) &&
      (s.step recorder trio noSettings (.raft (.act "n1" .start) 0)).any fun t =>
        (timedExec t [.wait (150 * millisecond)]).any fun u =>
          decide ((u.sys.hosts "n1").incarnation = (s.sys.hosts "n1").incarnation) &&
          (u.step recorder trio noSettings (.raft (.act "n1" .electionTimeout) 0)).isSome) =
      true := by decide +kernel
  obtain ⟨s, hs, hrest⟩ := (Option.any_eq_true _ _).mp hrun
  obtain ⟨hproc, hrest⟩ := Bool.and_eq_true_iff.mp hrest
  obtain ⟨p, hp, hproc⟩ := (Option.any_eq_true _ _).mp hproc
  obtain ⟨hmin, hok⟩ := Bool.and_eq_true_iff.mp hproc
  obtain ⟨o, ho, hok⟩ := (Option.any_eq_true _ _).mp hok
  obtain ⟨t, ht, hrest⟩ := (Option.any_eq_true _ _).mp hrest
  obtain ⟨u, hu, hrest⟩ := (Option.any_eq_true _ _).mp hrest
  obtain ⟨hinc, hstand⟩ := Bool.and_eq_true_iff.mp hrest
  obtain ⟨v, hv⟩ := Option.isSome_iff_exists.mp hstand
  cases hx : o.result with
  | error err =>
    rw [hx] at hok
    cases hok
  | ok x =>
    have hwait := elections_wait (timedExec_runs hs) rfl hp ho hx (.inl rfl) ht
      (timedExec_runs hu) (of_decide_eq_true hinc) hv
    rw [of_decide_eq_true hmin] at hwait
    exact ⟨s, t, u, v, hs, ht, hu, hv, hwait⟩

end Runs

end Raft
