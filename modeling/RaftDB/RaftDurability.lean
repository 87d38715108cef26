import RaftDB.RaftWrites

/-!
# Persist before reply

Whenever the lock is free, the files of a live node mirror it, and a restart would bring
back its term, vote, boundary and entries. Steps of the applier are added to the moves of
the handlers; the run lemma is for crashes between steps.
-/
namespace Raft

open Storage RaftNode TransitionSystem

variable {σ D : Type}

structure Live (cfg : Config) (disk : Disk D) (p : Proc σ D) : Prop where
  wf : p.node.Wf
  mirrors : Mirrors disk (p.node.durable wf)
  applier : ApplierOk p.node p.phase
  config : p.node.cfg = cfg.withDefaults

theorem Live.of_moves {cfg : Config} {disk : Disk D} {p : Proc σ D} (h : Live cfg disk p)
    {I : Snapshot D → Prop} {rn' : RaftNode D} {ws : List (StoreWrite D)} (hm : Moves I p.node ws rn') :
    Live cfg (disk.writeAll ws) { p with node := rn' } :=
  ⟨hm.wf h.wf, hm.mirrors h.wf h.mirrors, hm.applierOk h.wf h.applier,
    hm.settings.1.trans h.config⟩

theorem compacted_wf {rn : RaftNode D} (h : rn.Wf) {i : ℕ} (hb : rn.log.base < i)
    (hc : i ≤ rn.commitIndex) (t : ℕ) : (rn.compacted i t).Wf := by
  have hl := h.commit_le
  rw [h.numbered.lastLogIndex_eq] at hl
  have hdrop : Consecutive i (rn.log.entries.drop (i - rn.log.base)) := by
    have := h.numbered.drop (k := i - rn.log.base) (by omega)
    rwa [Nat.add_sub_cancel' hb.le] at this
  have hn : (rn.compacted i t).log.Numbered := hdrop
  refine ⟨hn, hc, ?_⟩
  rw [hn.lastLogIndex_eq]
  change rn.commitIndex ≤ i + (rn.log.entries.drop (i - rn.log.base)).length
  rw [List.length_drop]
  omega

theorem ApplierStep.keeps {M : StateMachine σ D} {p : Proc σ D} {o : StepOutcome σ D}
    (hs : ApplierStep M p o) (hw : p.node.Wf) (ha : ApplierOk p.node p.phase)
    {x : Proc σ D × Output D} (hx : o.result = .ok x) :
    x.1.node.Wf ∧ ApplierOk x.1.node x.1.phase := by
  cases hs with
  | park snap _ hph hpend =>
    cases hx
    rw [hph] at ha
    obtain ⟨hbase, hreach⟩ := ha.parked hpend
    refine ⟨⟨hw.numbered, hw.base_le, hw.commit_le⟩, ⟨?_, ?_, ?_, ?_, ?_⟩⟩
    · exact (ha.applied_le.trans hreach.le).trans hbase.ge
    · exact hbase.le.trans hw.base_le
    · exact fun _ => hbase.ge
    · intro s hs
      cases hs
    · intro i t hc
      cases hc
  | batch _ hph hpend hlt =>
    cases hx
    rw [hph] at ha
    have hb := ha.caught_up hpend
    refine ⟨hw, ⟨?_, ?_, ?_, ?_, ?_⟩⟩
    · exact Nat.le_add_right _ _
    · exact (Nat.add_sub_cancel' hlt.le).le
    · intro _
      exact hb.trans (Nat.le_add_right _ _)
    · intro s hs
      rw [hpend] at hs
      cases hs
    · intro i t hc
      cases hc
  | restore snap s hph _ =>
    cases hx
    rw [hph] at ha
    exact ⟨hw, ⟨ha.applied_le, ha.reach_le, ha.caught_up, ha.parked, fun hc => by cases hc⟩⟩
  | credit index hph =>
    cases hx
    rw [hph] at ha
    exact ⟨⟨hw.numbered, hw.base_le, hw.commit_le⟩,
      ⟨le_rfl, ha.reach_le, ha.caught_up, ha.parked, fun hc => by cases hc⟩⟩
  | apply e rest size hph =>
    cases hx
    rw [hph] at ha
    exact ⟨hw, ⟨ha.applied_le, ha.reach_le, ha.caught_up, ha.parked, fun hc => by cases hc⟩⟩
  | finish size phase hph hphase =>
    cases hx
    rw [hph] at ha
    refine ⟨⟨hw.numbered, hw.base_le, hw.commit_le⟩, ?_⟩
    rcases hphase with rfl | ⟨t, rfl, ht⟩
    · exact ⟨le_rfl, ha.reach_le, ha.caught_up, ha.parked, fun hc => by cases hc⟩
    · refine ⟨le_rfl, ha.reach_le, ha.caught_up, ha.parked, ?_⟩
      rintro i t' ⟨⟩
      exact ⟨rfl, fun _ => ht⟩
  | capture i t data hph _ =>
    cases hx
    rw [hph] at ha
    exact ⟨hw, ⟨ha.applied_le, ha.reach_le, ha.caught_up, ha.parked, ha.capture⟩⟩
  | skip i t data hph _ =>
    cases hx
    rw [hph] at ha
    obtain ⟨hi, _⟩ := ha.capture rfl
    refine ⟨hw, ⟨le_rfl, ?_, ?_, ?_, fun hc => by cases hc⟩⟩
    · exact ha.applied_le.trans ha.reach_le
    · exact fun hp => (ha.caught_up hp).trans hi.le
    · exact fun hp => ⟨(ha.parked hp).1, hi.ge.trans_lt (ha.parked hp).2⟩
  | save i t data hph hb =>
    cases hx
    rw [hph] at ha
    obtain ⟨hi, _⟩ := ha.capture rfl
    refine ⟨compacted_wf hw hb ha.reach_le t,
      ⟨le_rfl, hi.ge.trans ha.reach_le, ?_, ?_, fun hc => by cases hc⟩⟩
    · exact fun _ => hi.le
    · intro snap hp
      have : i < p.node.log.base := (ha.parked hp).2
      omega
  | panic e _ => cases hx

theorem ApplierStep.mirrors {M : StateMachine σ D} {disk : Disk D} {p : Proc σ D}
    {o : StepOutcome σ D} (hs : ApplierStep M p o) {hw : p.node.Wf}
    (hd : Mirrors disk (p.node.durable hw)) {x : Proc σ D × Output D} (hx : o.result = .ok x)
    (hw' : x.1.node.Wf) : Mirrors (disk.writeAll o.writes) (x.1.node.durable hw') := by
  cases hs with
  | save i t data _ _ =>
    cases hx
    exact ⟨hd.hardState, rfl, Replays.compact hw'.numbered⟩
  | panic e _ => cases hx
  | _ =>
    cases hx
    exact ⟨hd.hardState, hd.sentinel, hd.wal⟩

theorem ApplierStep.config {M : StateMachine σ D} {p : Proc σ D} {o : StepOutcome σ D}
    (hs : ApplierStep M p o) {x : Proc σ D × Output D} (hx : o.result = .ok x) :
    x.1.node.cfg = p.node.cfg := by
  cases hs <;> cases hx <;> rfl

theorem ApplierStep.live {M : StateMachine σ D} {cfg : Config} {disk : Disk D} {p : Proc σ D}
    {o : StepOutcome σ D} (hs : ApplierStep M p o) (h : Live cfg disk p) {x : Proc σ D × Output D}
    (hx : o.result = .ok x) : Live cfg (disk.writeAll o.writes) x.1 := by
  obtain ⟨hw, ha⟩ := hs.keeps h.wf h.applier hx
  exact ⟨hw, hs.mirrors h.mirrors hx hw, ha, (hs.config hx).trans h.config⟩

theorem recovered_live {cfg : Config} {disk : Disk D} {d : Durable} (h : Mirrors disk d)
    (M : StateMachine σ D) : Live cfg disk (Proc.boot M (recovered cfg disk d)) :=
  ⟨⟨d.numbered, le_rfl, d.numbered.base_le_last⟩, ⟨h.hardState, h.sentinel, h.wal⟩,
    ⟨le_rfl, le_rfl, fun _ => le_rfl, (by intro _ hs; cases hs), (by intro _ _ hc; cases hc)⟩,
    rfl⟩

/-- The directory is recoverable, and a process that owns it is live in it. -/
structure Site.Sound (cfg : Config) (s : Site σ D) : Prop where
  durable : ∃ d, Mirrors s.disk d
  live : ∀ {p}, s.proc = some p → Live cfg s.disk p ∧ checkConfig cfg.withDefaults = none

theorem Site.init_sound (cfg : Config) : (Site.init : Site σ D).Sound cfg :=
  ⟨⟨_, mirrors_empty⟩, by rintro _ ⟨⟩⟩

theorem Live.acts {M : StateMachine σ D} {cfg : Config} {disk : Disk D} {p : Proc σ D}
    (h : Live cfg disk p) {i : Input D} {o : StepOutcome σ D} (ho : p.Acts M i o) :
    (∃ d, Mirrors (disk.writeAll o.writes) d) ∧
      ∀ x, o.result = .ok x → Live cfg (disk.writeAll o.writes) x.1 := by
  rcases ho with ⟨rn', hm, hr⟩ | ⟨p', out, rfl, hf⟩ | ⟨_, happ⟩
  · have hlive := h.of_moves hm
    refine ⟨⟨_, hlive.mirrors⟩, fun x hx => ?_⟩
    rw [hr x hx]
    exact hlive
  · refine ⟨⟨_, h.mirrors⟩, ?_⟩
    rintro _ ⟨⟩
    obtain ⟨hw, hd, ha, hcfg⟩ := h
    obtain ⟨hph, a, b, c, hnode⟩ := hf.same
    have hw' : p'.node.Wf := by
      rw [hnode]
      exact ⟨hw.numbered, hw.base_le, hw.commit_le⟩
    refine ⟨hw', ?_, ?_, by rw [hnode]; exact hcfg⟩
    · have : p'.node.durable hw' = p.node.durable hw := by
        simp only [durable, hnode]
      rw [this]
      exact hd
    · rw [hnode, hph]
      exact ha.of_same rfl rfl le_rfl rfl fun _ _ _ => rfl
  · have hstep := p.applier_step h.wf h.applier happ
    have hlive := fun x hx => hstep.live (x := x) h hx
    refine ⟨?_, hlive⟩
    cases hres : o.result with
    | ok x => exact ⟨_, (hlive x hres).mirrors⟩
    | error e =>
      cases hstep with
      | panic e _ => exact ⟨_, h.mirrors⟩
      | _ => cases hres

theorem Site.Sound.down {cfg : Config} {s : Site σ D} (h : s.Sound cfg) :
    Site.Sound cfg (⟨s.disk, none⟩ : Site σ D) :=
  ⟨h.durable, by rintro _ ⟨⟩⟩

theorem Site.Sound.booted {cfg : Config} {s : Site σ D} (h : s.Sound cfg) {rn : RaftNode D}
    (hrn : newNode cfg s.disk = .ok rn) (M : StateMachine σ D) :
    Site.Sound cfg ⟨s.disk, some (Proc.boot M rn)⟩ := by
  obtain ⟨d, hd⟩ := h.durable
  have hcfg := (newNode_ok hrn).1
  rw [hd.newNode_eq hcfg] at hrn
  cases hrn
  refine ⟨⟨d, hd⟩, ?_⟩
  rintro _ ⟨⟩
  exact ⟨recovered_live hd M, hcfg⟩

theorem Site.Sound.acts {M : StateMachine σ D} {cfg : Config} {s : Site σ D} (h : s.Sound cfg)
    {p : Proc σ D} (hp : s.proc = some p) {i : Input D} {o : StepOutcome σ D}
    (ho : p.Acts M i o) : Site.Sound cfg ⟨s.disk.writeAll o.writes, o.process⟩ := by
  obtain ⟨hlive, hcfg⟩ := h.live hp
  obtain ⟨hd, hx⟩ := hlive.acts ho
  refine ⟨hd, ?_⟩
  intro q hq
  obtain ⟨out, hres⟩ := StepOutcome.process_eq hq
  exact ⟨hx _ hres, hcfg⟩

/-- Crashes fall between two steps, and appended entries are numbered consecutively. -/
def BetweenSteps (_ : Site σ D) : SiteEvent D → Prop
  | .input i => i.Numbered
  | .crashDuring _ _ => False
  | _ => True

instance (s : Site σ D) : (e : SiteEvent D) → Decidable (BetweenSteps s e)
  | .input i => inferInstanceAs (Decidable i.Numbered)
  | .crashDuring _ _ => .isFalse id
  | .boot => .isTrue trivial
  | .crash => .isTrue trivial

theorem Site.Sound.step {M : StateMachine σ D} {cfg : Config} {s t : Site σ D}
    (h : s.Sound cfg) {e : SiteEvent D} (he : BetweenSteps s e)
    (hst : s.step M cfg e = some t) : t.Sound cfg := by
  cases Site.stepWith_cases hst with
  | boot p hnone hboot =>
    obtain ⟨rn, hrn, rfl⟩ := booted_eq hboot
    exact h.booted hrn M
  | input i p o hp ho => exact h.acts hp (p.handle_cases (h.live hp).1.wf he ho)
  | crash p hp => exact h.down
  | crashDuring i written p o hp ho => exact absurd he id

section Uint64

variable {M : StateMachine σ D} {cfg : Config} {disk : Disk D} {s t : Site σ D} {p : Proc σ D}

/-- No index passes the largest `uint64`: neither one that a request carries, nor the one that
`Propose` assigns. -/
def NoOverflow (s : Site σ D) (e : SiteEvent D) : Prop :=
  ∀ i ∈ e.work, (∀ x ∈ i.entries, x.index < UInt64.size) ∧ ∀ p ∈ s.proc, p.HasRoom i

instance [DecidableEq D] (s : Site σ D) (e : SiteEvent D) : Decidable (NoOverflow s e) :=
  inferInstanceAs (Decidable (∀ i ∈ e.work, (∀ x ∈ i.entries, x.index < UInt64.size) ∧
    ∀ p ∈ s.proc, p.HasRoom i))

theorem Live.writes_uint64 (h : Live cfg disk p) (hd : disk.Uint64) {i : Input D}
    (hi : ∀ x ∈ i.entries, x.index < UInt64.size) (hroom : p.HasRoom i) {o : StepOutcome σ D}
    (ho : p.handleUint64 M i = some o) {ws : List (StoreWrite D)} (hws : ws ⊆ o.writes) :
    (disk.writeAll ws).Uint64 := by
  refine hd.writes fun w hw e he => ?_
  rcases Proc.handleUint64_writes h.wf h.applier hroom ho (hws hw) he with
    hlog | hreq | ⟨command, rfl, hlead, rfl⟩
  · exact hd e (h.mirrors.mem_wal hlog)
  · exact hi e hreq
  · exact hroom hlead

theorem Site.Sound.stepUint64 (h : s.Sound cfg) (hd : s.disk.Uint64) {e : SiteEvent D}
    (he : BetweenSteps s e) (hover : NoOverflow s e) (hst : s.stepUint64 M cfg e = some t) :
    t.Sound cfg ∧ t.disk.Uint64 := by
  cases Site.stepWith_cases hst with
  | boot p hnone hboot =>
    obtain ⟨rn, hrn, rfl⟩ := booted_eq hboot
    obtain ⟨d, hm⟩ := h.durable
    have hnew := hm.newNode_eq (newNodeFrom_ok.mp hrn).1
    rw [newNodeUint64_of_newNode hd hnew] at hrn
    cases hrn
    exact ⟨h.booted hnew M, hd⟩
  | input i p o hp ho =>
    obtain ⟨hentries, hroom⟩ := hover i rfl
    have hlive := (h.live hp).1
    exact ⟨h.acts hp (p.handleUint64_cases hlive.wf he (hroom p hp) ho),
      hlive.writes_uint64 hd hentries (hroom p hp) ho (List.Subset.refl _)⟩
  | crash p hp => exact ⟨h.down, hd⟩
  | crashDuring i written p o hp ho => exact absurd he id

theorem Site.soundUint64_of_runs
    (h : Runs (Site.stepUint64 M cfg) (fun s e => BetweenSteps s e ∧ NoOverflow s e) Site.init s) :
    s.Sound cfg ∧ s.disk.Uint64 :=
  h.invariant (P := fun u => u.Sound cfg ∧ u.disk.Uint64)
    ⟨Site.init_sound cfg, by rintro _ ⟨⟩⟩ fun _ _ _ hs he hst => hs.1.stepUint64 hs.2 he.1 he.2 hst

end Uint64

/-- While no index overflows: at every point where the lock is free, the stores recover the
node's term, vote, boundary and entries. -/
theorem stores_recover_node (M : StateMachine σ D) (cfg : Config) {s : Site σ D}
    (hrun : Runs (Site.stepUint64 M cfg) (fun s e => BetweenSteps s e ∧ NoOverflow s e)
      Site.init s) {p : Proc σ D} (hp : s.proc = some p) :
    ∃ rn, newNodeUint64 cfg s.disk = .ok rn ∧ rn.currentTerm = p.node.currentTerm ∧
      rn.votedFor = p.node.votedFor ∧ rn.log.sentinel = p.node.log.sentinel ∧
      rn.log.entries = p.node.log.entries := by
  obtain ⟨hsound, hd⟩ := Site.soundUint64_of_runs hrun
  obtain ⟨hlive, hcfg⟩ := hsound.live hp
  exact ⟨_, hlive.mirrors.newNodeUint64_eq hd hcfg, rfl, rfl, rfl, rfl⟩

def appendAndCompact : List (SiteEvent (List LogEntry)) :=
  [.boot, .input .start,
    .input (.appendEntries ⟨1, "n2", 0, 0, [⟨1, 1, [7]⟩, ⟨1, 2, [8]⟩], 2⟩),
    .input .applier, .input .applier, .input .applier, .input .applier, .input .applier,
    .input .applier, .crash, .boot, .input .start,
    .input (.appendEntries ⟨2, "n3", 2, 1, [⟨2, 3, [9]⟩], 2⟩)]

theorem stores_recover_node_after_compaction :
    ∃ s p, exec (Site.stepUint64 recorder ⟨"n1", ["n2", "n3"], 2, 0, 0, 0, 0⟩)
        (fun s e => decide (BetweenSteps s e ∧ NoOverflow s e)) Site.init appendAndCompact =
          some s ∧
      s.proc = some p ∧ p.node.log = ⟨⟨1, 2, []⟩, [⟨2, 3, [9]⟩]⟩ ∧
      ∃ rn, newNodeUint64 ⟨"n1", ["n2", "n3"], 2, 0, 0, 0, 0⟩ s.disk = .ok rn ∧
        rn.currentTerm = p.node.currentTerm ∧ rn.votedFor = p.node.votedFor ∧
        rn.log.sentinel = p.node.log.sentinel ∧ rn.log.entries = p.node.log.entries := by
  have hlog : ((exec (Site.stepUint64 recorder ⟨"n1", ["n2", "n3"], 2, 0, 0, 0, 0⟩)
      (fun s e => decide (BetweenSteps s e ∧ NoOverflow s e)) Site.init appendAndCompact).bind
      Site.proc).map (fun p => p.node.log) = some ⟨⟨1, 2, []⟩, [⟨2, 3, [9]⟩]⟩ := by
    decide +kernel
  obtain ⟨p, hbind, hpl⟩ := Option.map_eq_some_iff.mp hlog
  obtain ⟨s, hs, hp⟩ := Option.bind_eq_some_iff.mp hbind
  refine ⟨s, p, hs, hp, hpl, ?_⟩
  exact stores_recover_node recorder _
    (runs_of_exec (fun _ _ h => of_decide_eq_true h) appendAndCompact hs) hp

def proposeBeyondSnapshot : List (SiteEvent (List LogEntry)) :=
  [.boot, .input .start, .input (.installSnapshot ⟨1, "n2", UInt64.size - 1, 1, 0, [], true⟩),
    .input .applier, .input .applier, .input .applier, .input .electionTimeout,
    .input (.propose [7])]

/-- The new entry gets index 0, in memory and in the log file, and a restart takes it for one that
the snapshot covers. -/
theorem proposed_entry_not_recovered :
    ∃ s p rn, Runs (Site.stepUint64 recorder ⟨"n1", [], 0, 0, 0, 0, 0⟩) BetweenSteps
        Site.init s ∧
      s.proc = some p ∧ p.node.log = ⟨⟨1, UInt64.size - 1, []⟩, [⟨2, 0, [7]⟩]⟩ ∧
      s.disk.wal = [.append ⟨2, 0, [7]⟩] ∧
      newNodeUint64 ⟨"n1", [], 0, 0, 0, 0, 0⟩ s.disk = .ok rn ∧
      rn.log = ⟨⟨1, UInt64.size - 1, []⟩, []⟩ := by
  have hfacts : (exec (Site.stepUint64 recorder ⟨"n1", [], 0, 0, 0, 0, 0⟩)
      (fun s e => decide (BetweenSteps s e)) Site.init proposeBeyondSnapshot).map (fun s =>
        (s.proc.map fun p => p.node.log, s.disk.wal,
          (newNodeUint64 ⟨"n1", [], 0, 0, 0, 0, 0⟩ s.disk).toOption.map fun rn => rn.log)) =
      some (some ⟨⟨1, UInt64.size - 1, []⟩, [⟨2, 0, [7]⟩]⟩, [.append ⟨2, 0, [7]⟩],
        some ⟨⟨1, UInt64.size - 1, []⟩, []⟩) := by decide +kernel
  obtain ⟨s, hs, hx⟩ := Option.map_eq_some_iff.mp hfacts
  obtain ⟨hproc, hwal, hnew⟩ : _ ∧ _ ∧ _ := by simpa only [Prod.mk.injEq] using hx
  obtain ⟨p, hp, hlog⟩ := Option.map_eq_some_iff.mp hproc
  obtain ⟨rn, hrn, hback⟩ := Option.map_eq_some_iff.mp hnew
  exact ⟨s, p, rn, runs_of_exec (fun _ _ h => of_decide_eq_true h) _ hs, hp, hlog, hwal,
    eq_ok_of_toOption hrn, hback⟩

end Raft
