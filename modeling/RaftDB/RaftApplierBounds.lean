import RaftDB.RaftDurability

/-!
# The slice positions of the applier

The applier computes positions in the log by subtraction, and between two of its locked
sections the log may be replaced. Taking a batch is always in bounds. Crediting one is not
if a snapshot was installed while the batch was being applied: the new boundary then lies
beyond what the batch reaches.
-/
namespace Raft

open Storage RaftNode TransitionSystem

variable {σ D : Type} {I : Snapshot D → Prop}

/-- Position `index - start` of a slice of length `len`: no underflow, and in range. -/
def InSlice (index start len : ℕ) : Prop := start ≤ index ∧ index - start ≤ len

def Proc.TakesBatch (p : Proc σ D) : Prop :=
  p.phase = .waiting ∧ p.node.pendingSnapshot = none ∧ p.node.lastApplied < p.node.commitIndex

/-- The evaluations of the applier's next section, each where the source makes it. -/
structure Proc.InBounds (p : Proc σ D) : Prop where
  tail : p.TakesBatch →
    InSlice (p.node.lastApplied + 1) p.node.log.base p.node.log.slots.length
  batch : p.TakesBatch → ∃ tail, p.node.log.entriesFrom (p.node.lastApplied + 1) = some tail ∧
    InSlice p.node.commitIndex p.node.lastApplied tail.length
  grown : ∀ {size}, p.phase = .applying [] size → p.node.cfg.snapshotThreshold ≠ 0 →
    p.node.log.base ≤ p.node.lastApplied + size
  snapTerm : ∀ {size}, p.phase = .applying [] size → p.node.cfg.snapshotThreshold ≠ 0 →
    p.node.cfg.snapshotThreshold ≤ uint64Sub (p.node.lastApplied + size) p.node.log.base →
    InSlice (p.node.lastApplied + size) p.node.log.base (p.node.log.slots.length - 1)

def Proc.Undisturbed (p : Proc σ D) : Prop :=
  ∀ rest size, p.phase = .applying rest size → p.node.pendingSnapshot = none

theorem Live.inBounds {cfg : Config} {disk : Disk D} {p : Proc σ D} (h : Live cfg disk p)
    (hq : p.Undisturbed) : p.InBounds := by
  have hlast := h.wf.numbered.lastLogIndex_eq
  have hcommit := h.wf.commit_le
  have hslots : p.node.log.slots.length = p.node.log.entries.length + 1 := rfl
  have hbatch : p.TakesBatch → p.node.log.base ≤ p.node.lastApplied := by
    rintro ⟨hph, hpend, _⟩
    have hb := h.applier.caught_up hpend
    rwa [hph] at hb
  have hcredit : ∀ {size}, p.phase = .applying [] size →
      p.node.log.base ≤ p.node.lastApplied + size ∧
        p.node.lastApplied + size ≤ p.node.commitIndex := by
    intro size hph
    have hb := h.applier.caught_up (hq _ _ hph)
    have hr := h.applier.reach_le
    rw [hph] at hb hr
    exact ⟨hb, hr⟩
  refine ⟨?_, ?_, ?_, ?_⟩
  · intro ht
    have hb := hbatch ht
    have hlt := ht.2.2
    exact ⟨by omega, by omega⟩
  · intro ht
    have hb := hbatch ht
    have hlt := ht.2.2
    refine ⟨_, h.wf.numbered.entriesFrom_eq (by omega) (by omega), hlt.le, ?_⟩
    rw [List.length_drop]
    omega
  · exact fun hph _ => (hcredit hph).1
  · intro size hph _ _
    obtain ⟨hb, hr⟩ := hcredit hph
    exact ⟨hb, by omega⟩

theorem Moves.pending {rn rn' : RaftNode D} {ws : List (StoreWrite D)} (hI : ∀ snap, ¬I snap)
    (hm : Moves I rn ws rn') : rn'.pendingSnapshot = rn.pendingSnapshot := by
  rcases hm.snapshots Disk.empty with ⟨hp, _⟩ | ⟨snap, hi, _⟩
  · exact hp
  · exact absurd hi (hI snap)

/-- Only a batch that starts, and starts with nothing parked, enters the phase. -/
theorem ApplierStep.undisturbed {M : StateMachine σ D} {p : Proc σ D} {o : StepOutcome σ D}
    (hs : ApplierStep M p o) (hq : p.Undisturbed) {x : Proc σ D × Output D}
    (hx : o.result = .ok x) : x.1.Undisturbed := by
  intro rest' size' hph'
  cases hs with
  | batch _ hph hpend hlt =>
    cases hx
    exact hpend
  | apply e rest size hph =>
    cases hx
    exact hq _ _ hph
  | finish size phase hph hphase =>
    cases hx
    rcases hphase with rfl | ⟨t, rfl, _⟩ <;> cases hph'
  | panic e _ => cases hx
  | _ =>
    cases hx
    cases hph'

/-- No snapshot is installed while the applier is busy with a batch. -/
def NoInstallInBatch (s : Site σ D) (e : SiteEvent D) : Prop :=
  BetweenSteps s e ∧ ∀ i p rest size, e = .input i → s.proc = some p →
    p.phase = .applying rest size → ∀ snap, ¬p.Installs i snap

theorem Proc.Undisturbed.handle {M : StateMachine σ D} {p : Proc σ D} (hq : p.Undisturbed)
    (hw : p.node.Wf) (ha : ApplierOk p.node p.phase) {i : Input D} (hi : i.Numbered)
    (hinst : ∀ {rest size}, p.phase = .applying rest size → ∀ snap, ¬p.Installs i snap)
    {o : StepOutcome σ D} (ho : p.handle M i = some o) {x : Proc σ D × Output D}
    (hx : o.result = .ok x) : x.1.Undisturbed := by
  rcases p.handle_cases hw hi ho with ⟨rn', hm, hr⟩ | ⟨p', out, rfl, hf⟩ | ⟨_, happ⟩
  · intro rest size hph
    rw [hr x hx] at hph ⊢
    exact (hm.pending (hinst hph)).trans (hq _ _ hph)
  · cases hx
    obtain ⟨hph, a, b, c, hnode⟩ := hf.same
    intro rest size hph'
    rw [hph] at hph'
    rw [hnode]
    exact hq _ _ hph'
  · exact (p.applier_step hw ha happ).undisturbed hq hx

theorem Site.undisturbed_of_runs {M : StateMachine σ D} {cfg : Config} {s : Site σ D}
    (h : Runs (Site.step M cfg) NoInstallInBatch Site.init s) :
    s.Sound cfg ∧ ∀ p, s.proc = some p → p.Undisturbed := by
  refine h.invariant (P := fun u => u.Sound cfg ∧ ∀ p, u.proc = some p → p.Undisturbed)
    ⟨Site.init_sound cfg, by rintro _ ⟨⟩⟩ ?_
  rintro u e v ⟨hu, hq⟩ ⟨hbetween, hinst⟩ hst
  refine ⟨hu.step hbetween hst, ?_⟩
  intro p' hp'
  cases Site.stepWith_cases hst with
  | boot p hnone hboot =>
    obtain ⟨rn, _, rfl⟩ := booted_eq hboot
    cases hp'
    intro rest size hph
    cases hph
  | input i p o hp ho =>
    obtain ⟨out, hres⟩ := StepOutcome.process_eq hp'
    have hlive := (hu.live hp).1
    exact (hq p hp).handle hlive.wf hlive.applier hbetween (hinst i p _ _ rfl hp) ho hres
  | crash p hp => cases hp'
  | crashDuring i written p o hp ho => exact absurd hbetween id

/-- As long as no snapshot lands in the middle of a batch, every position the applier
computes lies within the log. -/
theorem applier_in_bounds (M : StateMachine σ D) (cfg : Config) {s : Site σ D}
    (hrun : Runs (Site.step M cfg) NoInstallInBatch Site.init s) {p : Proc σ D}
    (hp : s.proc = some p) : p.InBounds :=
  let ⟨hsound, hq⟩ := Site.undisturbed_of_runs hrun
  (hsound.live hp).1.inBounds (hq p hp)

def installAfterBatch : List (SiteEvent (List LogEntry)) :=
  [.boot, .input .start,
    .input (.appendEntries ⟨1, "n2", 0, 0, [⟨1, 1, [1]⟩, ⟨1, 2, [2]⟩], 2⟩),
    .input .applier, .input .applier, .input .applier, .input .applier,
    .input (.installSnapshot ⟨1, "n2", 5, 1, 0,
      [⟨1, 1, [1]⟩, ⟨1, 2, [2]⟩, ⟨1, 3, [3]⟩, ⟨1, 4, [4]⟩, ⟨1, 5, [5]⟩], true⟩)]

def Phase.idle : Phase D → Bool
  | .applying _ _ => false
  | _ => true

def noInstallInBatch (s : Site σ D) (e : SiteEvent D) : Bool :=
  decide (BetweenSteps s e) && match e, s.proc with
    | .input (.installSnapshot _), some p => p.phase.idle
    | _, _ => true

theorem noInstallInBatch_sound {s : Site σ D} {e : SiteEvent D}
    (h : noInstallInBatch s e = true) : NoInstallInBatch s e := by
  obtain ⟨hbetween, hidle⟩ := Bool.and_eq_true_iff.mp h
  refine ⟨of_decide_eq_true hbetween, ?_⟩
  rintro i p rest size rfl hp hph snap ⟨args, rfl, _⟩
  rw [hp] at hidle
  simp [hph, Phase.idle] at hidle

theorem applier_in_bounds_after_batch :
    ∃ s p, exec (Site.step recorder ⟨"n1", ["n2", "n3"], 2, 0, 0, 0, 0⟩) noInstallInBatch
        Site.init installAfterBatch = some s ∧
      s.proc = some p ∧ p.phase = .serializing 2 1 ∧ p.InBounds := by
  have hphase : ((exec (Site.step recorder ⟨"n1", ["n2", "n3"], 2, 0, 0, 0, 0⟩) noInstallInBatch
      Site.init installAfterBatch).bind Site.proc).map Proc.phase =
      some (.serializing 2 1) := by decide +kernel
  obtain ⟨p, hbind, hph⟩ := Option.map_eq_some_iff.mp hphase
  obtain ⟨s, hs, hp⟩ := Option.bind_eq_some_iff.mp hbind
  exact ⟨s, p, hs, hp, hph, applier_in_bounds recorder _
    (runs_of_exec (fun _ _ => noInstallInBatch_sound) installAfterBatch hs) hp⟩

/-- The snapshot arrives between the two entries of the batch. -/
def installInBatch : List (SiteEvent (List LogEntry)) :=
  [.boot, .input .start,
    .input (.appendEntries ⟨1, "n2", 0, 0, [⟨1, 1, [1]⟩, ⟨1, 2, [2]⟩], 2⟩),
    .input .applier, .input .applier,
    .input (.installSnapshot ⟨1, "n2", 5, 1, 0,
      [⟨1, 1, [1]⟩, ⟨1, 2, [2]⟩, ⟨1, 3, [3]⟩, ⟨1, 4, [4]⟩, ⟨1, 5, [5]⟩], true⟩),
    .input .applier]

/-- The batch reaches index 2, the boundary is at 5: the difference wraps around, passes for
a log grown beyond the threshold, and the term lookup panics. -/
theorem applier_out_of_bounds :
    ∃ s p, Runs (Site.step recorder ⟨"n1", ["n2", "n3"], 2, 0, 0, 0, 0⟩) BetweenSteps
        Site.init s ∧
      s.proc = some p ∧ ¬p.InBounds ∧
      (p.handle recorder .applier).bind StepOutcome.failure = some .indexOutOfRange := by
  have hfacts : ((exec (Site.step recorder ⟨"n1", ["n2", "n3"], 2, 0, 0, 0, 0⟩)
      (fun s e => decide (BetweenSteps s e)) Site.init installInBatch).bind Site.proc).map
      (fun p => (p.phase, p.node.lastApplied, p.node.log.base, p.node.cfg.snapshotThreshold,
        (p.handle recorder .applier).bind StepOutcome.failure)) =
      some (.applying [] 2, 0, 5, 2, some .indexOutOfRange) := by decide +kernel
  obtain ⟨p, hbind, hp'⟩ := Option.map_eq_some_iff.mp hfacts
  obtain ⟨s, hs, hp⟩ := Option.bind_eq_some_iff.mp hbind
  simp only [Prod.mk.injEq] at hp'
  obtain ⟨hph, happ, hbase, hthr, hfail⟩ := hp'
  refine ⟨s, p, runs_of_exec (fun _ _ h => of_decide_eq_true h) installInBatch hs, hp, ?_, hfail⟩
  intro hin
  have := hin.grown hph (by omega)
  omega

end Raft
