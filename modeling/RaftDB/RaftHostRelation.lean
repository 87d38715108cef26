import RaftDB.RaftDurability
import RaftDB.RaftLeaderRelation

/-!
# Processes and directories refine the protocol

The state machine of a process holds exactly a chosen prefix, and so does every snapshot: on
disk, parked, being restored or just captured. A process that dies falls back to what its
directory recovers, which the protocol allows: its role and the commits above its boundary
are forgotten.
-/
namespace Raft

open Storage ClusterConfig ReplicatedLog LogPrefix Function
open RaftNode hiding id

variable {σ D : Type}

/-- A reading of state machine states and snapshots as the entries that went into them. -/
structure Represents (M : StateMachine σ D) where
  state : List LogEntry → σ → Prop
  data : List LogEntry → D → Prop
  init : state [] M.init
  apply : ∀ {l s} (e), state l s → state (l ++ [e]) (M.apply s e)
  snapshot : ∀ {l s d}, state l s → M.snapshot s = some d → data l d
  restore : ∀ {l d s}, data l d → M.restore d = some s → state l s

def Represents.nothing (M : StateMachine σ D) : Represents M where
  state _ _ := True
  data _ _ := True
  init := trivial
  apply _ _ := trivial
  snapshot _ _ := trivial
  restore _ _ := trivial

/-- How many entries the state machine has been given, in a phase of the applier. -/
def Phase.progress (rn : RaftNode D) : Phase D → ℕ
  | .restored index => index
  | .applying rest size => rn.lastApplied + (size - rest.length)
  | _ => rn.lastApplied

theorem Phase.progress_of_same {rn rn' : RaftNode D} (phase : Phase D)
    (happ : rn'.lastApplied = rn.lastApplied) : phase.progress rn' = phase.progress rn := by
  cases phase <;> simp only [Phase.progress, happ]

theorem Phase.progress_le {rn : RaftNode D} {phase : Phase D} (h : ApplierOk rn phase) :
    phase.progress rn ≤ rn.commitIndex := by
  have hreach := h.reach_le
  have happ := h.applied_le.trans hreach
  cases phase with
  | applying rest size =>
    simp only [Phase.reach, Phase.progress] at hreach ⊢
    omega
  | restored index => exact hreach
  | _ => exact happ

section Relations

variable {M : StateMachine σ D} (R : Represents M) (cfg : Config) (n : NodeId) (a : Abstract)

def HoldsPrefix (snap : Snapshot D) : Prop :=
  R.data (a.chosen.take snap.lastIncludedIndex) snap.data

structure MachineRel (p : Proc σ D) : Prop where
  initial : ∀ {data}, p.node.initialSnapshotData = some data →
    p.node.started = false ∧ p.phase = .waiting ∧
      R.data (a.chosen.take p.node.lastApplied) data
  machine : p.node.initialSnapshotData = none →
    R.state (a.chosen.take (p.phase.progress p.node)) p.machine
  pending : ∀ {snap}, p.node.pendingSnapshot = some snap → HoldsPrefix R a snap
  restoring : ∀ {snap}, p.phase = .restoring snap → HoldsPrefix R a snap
  applying : ∀ {rest size}, p.phase = .applying rest size → rest.length ≤ size ∧
    rest <+: a.chosen.drop (p.node.lastApplied + (size - rest.length))
  captured : ∀ {i t data}, p.phase = .captured i t data → R.data (a.chosen.take i) data

structure Alive (disk : Disk D) (p : Proc σ D) : Prop where
  live : Live cfg disk p
  node : NodeRel a n p.node
  matched : Matched a p.node
  machine : MachineRel R a p
  saved : ∀ {snap}, disk.snapshot = some snap → HoldsPrefix R a snap

/-- A directory without a process stands for the node that it recovers. -/
structure Dead (disk : Disk D) : Prop where
  recovers : ∃ d, Mirrors disk d ∧ NodeRel a n (recovered cfg disk d)
  saved : ∀ {snap}, disk.snapshot = some snap → HoldsPrefix R a snap

end Relations

section Growth

variable {M : StateMachine σ D} {R : Represents M} {c : ValidCluster} {fresh : Prop}
  {cfg : Config} {n : NodeId} {a a' : Abstract} {disk : Disk D} {p : Proc σ D}

theorem HoldsPrefix.mono {snap : Snapshot D} (h : HoldsPrefix R a snap) (hg : Grows a a')
    (hle : snap.lastIncludedIndex ≤ a.chosen.length) : HoldsPrefix R a' snap := by
  rw [HoldsPrefix, take_of_isPrefix hg.chosen hle]
  exact h

theorem mirrors_index {d : Durable} (h : Mirrors disk d) {snap : Snapshot D}
    (hs : disk.snapshot = some snap) :
    snap.lastIncludedIndex = d.log.base ∧ snap.lastIncludedTerm = d.log.sentinel.term := by
  have := h.sentinel
  rw [hs] at this
  rw [RaftLog.base, ← this]
  exact ⟨rfl, rfl⟩

theorem mirrors_nothing {d : Durable} (h : Mirrors disk d) (hs : disk.snapshot = none) :
    d.log.base = 0 := by
  have := h.sentinel
  rw [hs] at this
  rw [RaftLog.base, ← this]
  rfl

theorem MachineRel.mono (h : MachineRel R a p) (hok : ApplierOk p.node p.phase)
    (hb : p.node.log.base ≤ p.node.commitIndex) (hc : p.node.commitIndex ≤ a.chosen.length)
    (hg : Grows a a') : MachineRel R a' p := by
  have happ : p.node.lastApplied ≤ a.chosen.length :=
    (hok.applied_le.trans hok.reach_le).trans hc
  refine ⟨?_, ?_, ?_, ?_, ?_, ?_⟩
  · intro data hd
    rw [take_of_isPrefix hg.chosen happ]
    exact h.initial hd
  · intro hnone
    rw [take_of_isPrefix hg.chosen ((Phase.progress_le hok).trans hc)]
    exact h.machine hnone
  · intro snap hp
    refine (h.pending hp).mono hg ?_
    rw [(hok.parked hp).1]
    exact hb.trans hc
  · intro snap hp
    have hreach := hok.reach_le
    rw [hp] at hreach
    exact (h.restoring hp).mono hg (hreach.trans hc)
  · intro rest size hp
    exact ⟨(h.applying hp).1, (h.applying hp).2.trans (hg.chosen.drop _)⟩
  · intro i t data hp
    have hreach : i ≤ p.node.commitIndex := by
      have := hok.reach_le
      rwa [hp] at this
    rw [take_of_isPrefix hg.chosen (hreach.trans hc)]
    exact h.captured hp

theorem NodeRel.commit_le_chosen {rn : RaftNode D} (h : NodeRel a n rn) (hi : Valid c a) :
    rn.commitIndex ≤ a.chosen.length := by
  rw [← h.commit]
  exact Invariant.commit_le_chosen hi n

theorem Alive.saved_le (h : Alive R cfg n a disk p) (hi : Valid c a) {snap : Snapshot D}
    (hs : disk.snapshot = some snap) : snap.lastIncludedIndex ≤ a.chosen.length := by
  rw [(mirrors_index h.live.mirrors hs).1]
  exact h.node.base_le hi

theorem Alive.other (h : Alive R cfg n a disk p) (hi : Valid c a) (hg : Grows a a')
    (hu : Untouched n a a') : Alive R cfg n a' disk p :=
  ⟨h.live, h.node.other hi hg hu, h.matched.mono hg,
    h.machine.mono h.live.applier h.live.wf.base_le (h.node.commit_le_chosen hi) hg,
    fun hs => (h.saved hs).mono hg (h.saved_le hi hs)⟩

theorem Dead.other (h : Dead R cfg n a disk) (hi : Valid c a) (hg : Grows a a')
    (hu : Untouched n a a') : Dead R cfg n a' disk := by
  obtain ⟨d, hd, hn⟩ := h.recovers
  refine ⟨⟨d, hd, hn.other hi hg hu⟩, fun hs => (h.saved hs).mono hg ?_⟩
  rw [(mirrors_index hd hs).1]
  exact hn.base_le hi

theorem Alive.related (h : Alive R cfg n a disk p) (hi : Valid c a) (hx : Indexed a)
    (hf : fresh → ¬a.stale) : Related c fresh n a p.node :=
  ⟨hi, h.live.wf, h.node, hx, h.matched, hf⟩

theorem Related.dies {rn : RaftNode D} (h : Related c fresh n a rn) (cfg : Config)
    (hd : Mirrors disk (rn.durable h.wf)) :
    ∃ a', ActsAs c n a a' ∧ Indexed a' ∧ (fresh → ¬a'.stale) ∧ a'.chosen = a.chosen ∧
      ∃ d, Mirrors disk d ∧ NodeRel a' n (recovered cfg disk d) := by
  refine ⟨_, .single (.relax a n (a.base n) le_rfl (Invariant.logs h.valid n).base_le),
    h.indexed, h.unstale, rfl, _, hd, ?_⟩
  exact ⟨h.node.term, update_self _ _ _, h.node.voted, h.node.base,
    (update_self _ _ _).trans h.node.base, h.node.log, h.node.sentinel⟩

theorem Alive.dies (h : Alive R cfg n a disk p) (hrel : Related c fresh n a p.node) :
    ∃ a', ActsAs c n a a' ∧ Indexed a' ∧ (fresh → ¬a'.stale) ∧ Dead R cfg n a' disk := by
  obtain ⟨a', hacts, hx, hf, hch, d, hd, hn⟩ := hrel.dies cfg h.live.mirrors
  refine ⟨a', hacts, hx, hf, ⟨d, hd, hn⟩, fun hs => ?_⟩
  rw [HoldsPrefix, hch]
  exact h.saved hs

theorem Dead.boots (h : Dead R cfg n a disk) {rn : RaftNode D} (hrn : newNode cfg disk = .ok rn) :
    Alive R cfg n a disk (Proc.boot M rn) ∧ rn.state = .follower := by
  obtain ⟨d, hd, hn⟩ := h.recovers
  have hcfg := (newNode_ok hrn).1
  rw [hd.newNode_eq hcfg] at hrn
  cases hrn
  refine ⟨⟨recovered_live hd M, hn, .of_follower rfl, ?_, h.saved⟩, rfl⟩
  refine ⟨?_, ?_, ?_, ?_, ?_, ?_⟩
  · intro data hdata
    refine ⟨rfl, rfl, ?_⟩
    obtain ⟨snap, hs, rfl⟩ := Option.map_eq_some_iff.mp hdata
    have := h.saved hs
    rw [HoldsPrefix, (mirrors_index hd hs).1] at this
    exact this
  · intro hnone
    change R.state (a.chosen.take d.log.base) M.init
    rw [mirrors_nothing hd (Option.map_eq_none_iff.mp hnone)]
    exact R.init
  · rintro _ ⟨⟩
  · rintro _ ⟨⟩
  · rintro _ _ ⟨⟩
  · rintro _ _ _ ⟨⟩

end Growth

section Reactions

variable {M : StateMachine σ D} {R : Represents M} {c : ValidCluster} {fresh : Prop}
  {cfg : Config} {n : NodeId} {a a' : Abstract} {disk : Disk D} {p : Proc σ D}
  {I : Snapshot D → Prop}

variable (R c fresh cfg n a disk p) in
structure Reaction (o : StepOutcome σ D) (a' : Abstract) : Prop where
  acts : ActsAs c n a a'
  indexed : Indexed a'
  unstale : fresh → ¬a'.stale
  alive : ∀ {p' out}, o.result = .ok (p', out) → Alive R cfg n a' (disk.writeAll o.writes) p' ∧
    p.node.commitIndex ≤ p'.node.commitIndex
  dead : ∀ {e}, o.result = .error e → Dead R cfg n a' (disk.writeAll o.writes) ∧
    (fresh → e.refusal = false)

theorem MachineRel.of_moves (h : MachineRel R a p) {rn' : RaftNode D} {ws : List (StoreWrite D)}
    (hm : Moves I p.node ws rn') (hI : ∀ {snap}, I snap → HoldsPrefix R a snap) :
    MachineRel R a { p with node := rn' } := by
  obtain ⟨_, hstart, _, hinit, happ⟩ := hm.settings
  refine ⟨?_, ?_, ?_, h.restoring, ?_, h.captured⟩
  · intro data hd
    rw [show rn'.initialSnapshotData = some data from hd] at hinit
    obtain ⟨h1, h2, h3⟩ := h.initial hinit.symm
    refine ⟨hstart.trans h1, h2, ?_⟩
    change R.data (a.chosen.take rn'.lastApplied) data
    rw [happ]
    exact h3
  · intro hnone
    change R.state (a.chosen.take (p.phase.progress rn')) p.machine
    rw [p.phase.progress_of_same happ]
    exact h.machine (hinit.symm.trans hnone)
  · intro snap hp
    rcases hm.snapshots Disk.empty with ⟨hsame, _⟩ | ⟨new, hi, hpend, _⟩
    · exact h.pending (hsame.symm.trans hp)
    · rw [show rn'.pendingSnapshot = some snap from hp] at hpend
      cases hpend
      exact hI hi
  · intro rest size hph
    change _ ∧ rest <+: a.chosen.drop (rn'.lastApplied + _)
    rw [happ]
    exact h.applying hph

theorem Alive.locked {ρ : Type} (h : Alive R cfg n a disk p) (hrel : Related c fresh n a p.node)
    {o : Outcome D ρ} {post : Abstract → RaftNode D → ρ → Prop}
    (hsim : o.Simulated c fresh I n a p.node post)
    (hI : ∀ {snap}, I snap → HoldsPrefix R a snap ∧ snap.lastIncludedIndex ≤ a.chosen.length)
    (out : ρ → Output D) :
    ∃ a', Reaction R c fresh cfg n a disk p (p.locked o out) a' ∧
      ∀ {p' x}, (p.locked o out).result = .ok (p', x) →
        ∃ rn' r, p' = { p with node := rn' } ∧ x = out r ∧ post a' rn' r := by
  obtain ⟨a', rn', hs, hret, herr⟩ := hsim
  have hg := hs.acts.grows hrel.valid
  have hrel' := hs.related hrel
  have hI' : ∀ {snap}, I snap → HoldsPrefix R a' snap := fun hi => (hI hi).1.mono hg (hI hi).2
  have halive : Alive R cfg n a' (disk.writeAll o.writes) { p with node := rn' } := by
    refine ⟨h.live.of_moves hs.moves, hs.node, hs.matched, ?_, ?_⟩
    · exact (h.machine.mono h.live.applier h.live.wf.base_le (h.node.commit_le_chosen hrel.valid)
        hg).of_moves hs.moves hI'
    · intro snap hsnap
      rcases hs.moves.snapshots disk with ⟨_, hsame⟩ | ⟨new, hi, _, hnew⟩
      · have hold := hsame.symm.trans hsnap
        exact (h.saved hold).mono hg (h.saved_le hrel.valid hold)
      · rw [hnew] at hsnap
        cases hsnap
        exact hI' hi
  cases hres : o.result with
  | ok x =>
    obtain ⟨rn₁, r⟩ := x
    obtain ⟨rfl, hpost⟩ := hret _ hres
    have hlock : p.locked o out = ⟨o.writes, .ok ({ p with node := rn₁ }, out r)⟩ := by
      rw [Proc.locked, hres]
    rw [hlock]
    refine ⟨a', ⟨hs.acts, hs.indexed, hs.unstale, ?_, by rintro _ ⟨⟩⟩, ?_⟩
    · rintro _ _ ⟨⟩
      exact ⟨halive, hs.moves.commit_le⟩
    · rintro _ _ ⟨⟩
      exact ⟨_, r, rfl, rfl, hpost⟩
  | error e =>
    have hlock : p.locked o out = ⟨o.writes, .error e⟩ := by
      rw [Proc.locked, hres]
    obtain ⟨a'', hdies, hx, hf, hdead⟩ := halive.dies hrel'
    rw [hlock]
    refine ⟨a'', ⟨hs.acts.trans hdies, hx, hf, by rintro _ _ ⟨⟩, ?_⟩, by rintro _ _ ⟨⟩⟩
    rintro _ ⟨⟩
    exact ⟨hdead, herr e hres⟩

variable (R a) in
def Observed : Output D → Prop
  | .applied e => ∃ i, e.index = i + 1 ∧ a.chosen[i]? = some e
  | .restored data => ∃ i, i ≤ a.chosen.length ∧ R.data (a.chosen.take i) data
  | _ => True

theorem Alive.flagged (h : Alive R cfg n a disk p) (hrel : Related c fresh n a p.node)
    {p' : Proc σ D} {out : Output D} (hf : p.Flagged M p' out) :
    MachineRel R a p' ∧ Observed R a out := by
  have hle : p.node.lastApplied ≤ a.chosen.length :=
    (h.live.applier.applied_le.trans h.live.applier.reach_le).trans
      (h.node.commit_le_chosen hrel.valid)
  obtain ⟨hinit, hmach, hpend, hrest, happ, hcap⟩ := h.machine
  cases hf with
  | stopped => exact ⟨⟨hinit, hmach, hpend, hrest, happ, hcap⟩, trivial⟩
  | started hfresh hnone =>
    refine ⟨⟨?_, hmach, hpend, hrest, happ, hcap⟩, trivial⟩
    intro data hd
    rw [show p.node.initialSnapshotData = some data from hd] at hnone
    cases hnone
  | resumed data s hfresh hdata hs =>
    obtain ⟨_, hph, hrep⟩ := hinit hdata
    refine ⟨⟨by rintro _ ⟨⟩, ?_, hpend, hrest, happ, hcap⟩, _, hle, hrep⟩
    intro _
    change R.state (a.chosen.take (p.phase.progress p.node)) s
    rw [hph]
    exact R.restore hrep hs

theorem Alive.flag_reaction (h : Alive R cfg n a disk p) (hrel : Related c fresh n a p.node)
    {p' : Proc σ D} {out : Output D} (hf : p.Flagged M p' out) :
    Reaction R c fresh cfg n a disk p ⟨[], .ok (p', out)⟩ a ∧ Observed R a out ∧
      Subdued p.node p'.node ∧ out.Silent := by
  obtain ⟨_, started, stopped, initial, hnode⟩ := hf.same
  have hlive := (h.live.acts (i := .start) (Or.inr (Or.inl ⟨p', out, rfl, hf⟩))).2 _ rfl
  obtain ⟨hmach, hobs⟩ := h.flagged hrel hf
  refine ⟨⟨.refl n a, hrel.indexed, hrel.unstale, ?_, by rintro _ ⟨⟩⟩, hobs, ?_, ?_⟩
  · rintro _ _ ⟨⟩
    refine ⟨⟨hlive, ?_, ?_, hmach, h.saved⟩, by rw [hnode]⟩
    · rw [hnode]
      exact h.node.of_same rfl rfl rfl rfl rfl
    · rw [hnode]
      exact h.matched
  · rw [hnode]
    exact ⟨fun hs => ⟨hs, rfl⟩, fun hs => ⟨hs, rfl, rfl⟩⟩
  · cases hf <;> trivial

/-- The batch that the applier takes is the next piece of the chosen prefix. -/
theorem Alive.batch_eq (h : Alive R cfg n a disk p) (hi : Valid c a)
    (hb : p.node.log.base ≤ p.node.lastApplied) :
    (p.node.log.entries.drop (p.node.lastApplied - p.node.log.base)).take
      (p.node.commitIndex - p.node.lastApplied) =
      (a.chosen.take p.node.commitIndex).drop p.node.lastApplied := by
  rw [← h.node.drop hi hb, ← List.drop_take,
    Invariant.take_commit hi n h.node.commit.ge]

theorem take_succ_of_getElem? {l : List LogEntry} {k : ℕ} {e : LogEntry} (h : l[k]? = some e) :
    l.take (k + 1) = l.take k ++ [e] := by
  rw [List.take_add_one, h]
  rfl

theorem MachineRel.handed (hn : p.node.initialSnapshotData = none)
    (hstate : R.state (a.chosen.take (p.phase.progress p.node)) p.machine)
    (hpend : ∀ {snap}, p.node.pendingSnapshot = some snap → HoldsPrefix R a snap)
    (hrest : ∀ {snap}, p.phase = .restoring snap → HoldsPrefix R a snap)
    (happ : ∀ {rest size}, p.phase = .applying rest size → rest.length ≤ size ∧
      rest <+: a.chosen.drop (p.node.lastApplied + (size - rest.length)))
    (hcap : ∀ {i t data}, p.phase = .captured i t data → R.data (a.chosen.take i) data) :
    MachineRel R a p :=
  ⟨fun hd => absurd (hn.symm.trans hd) (by simp), fun _ => hstate, hpend, hrest, happ, hcap⟩

/-- The recovered snapshot has been handed over before the applier moves; from then on the
state machine has what the phase says. -/
theorem MachineRel.state_at (h : MachineRel R a p) {phase : Phase D} (hph : p.phase = phase)
    (hor : phase ≠ .waiting ∨ p.node.started = true) :
    p.node.initialSnapshotData = none ∧
      R.state (a.chosen.take (phase.progress p.node)) p.machine := by
  have hnone : p.node.initialSnapshotData = none := by
    cases hd : p.node.initialSnapshotData with
    | none => rfl
    | some data =>
      obtain ⟨hst, hwait, _⟩ := h.initial hd
      rcases hor with hne | hst'
      · exact absurd (hph.symm.trans hwait) hne
      · rw [hst] at hst'
        cases hst'
  have hstate := h.machine hnone
  rw [hph] at hstate
  exact ⟨hnone, hstate⟩

theorem MachineRel.next_chosen (h : MachineRel R a p) {e : LogEntry} {rest : List LogEntry}
    {size : ℕ} (hph : p.phase = .applying (e :: rest) size) :
    ∃ k, p.phase.progress p.node = k ∧ p.node.lastApplied + (size - rest.length) = k + 1 ∧
      rest.length ≤ size ∧ a.chosen[k]? = some e ∧ rest <+: a.chosen.drop (k + 1) := by
  obtain ⟨hle, hpre⟩ := h.applying hph
  rw [hph]
  simp only [List.length_cons] at hle hpre
  refine ⟨p.node.lastApplied + (size - (rest.length + 1)), rfl, by omega, by omega, ?_, ?_⟩
  · have := getElem?_of_isPrefix hpre (i := 0) (e := e) rfl
    rwa [List.getElem?_drop, Nat.add_zero] at this
  · rw [← List.drop_drop]
    exact hpre.drop 1

theorem Alive.batch_length (h : Alive R cfg n a disk p) (hi : Valid c a)
    (hb : p.node.log.base ≤ p.node.lastApplied) :
    ((p.node.log.entries.drop (p.node.lastApplied - p.node.log.base)).take
      (p.node.commitIndex - p.node.lastApplied)).length =
      p.node.commitIndex - p.node.lastApplied := by
  rw [h.batch_eq hi hb, List.length_drop, List.length_take,
    Nat.min_eq_left (h.node.commit_le_chosen hi)]

theorem ApplierStep.machineRel {o : StepOutcome σ D} (hs : ApplierStep M p o)
    (h : Alive R cfg n a disk p) (hrel : Related c fresh n a p.node) {p' : Proc σ D}
    {out : Output D} (hx : o.result = .ok (p', out)) : MachineRel R a p' ∧ Observed R a out := by
  have hok := h.live.applier
  have hpend : ∀ {snap}, p.node.pendingSnapshot = some snap → HoldsPrefix R a snap :=
    h.machine.pending
  cases hs with
  | park snap hst hph hp =>
    cases hx
    obtain ⟨hn, hstate⟩ := h.machine.state_at hph (Or.inr hst)
    refine ⟨.handed hn hstate (by rintro _ ⟨⟩) ?_ (by rintro _ _ ⟨⟩) (by rintro _ _ _ ⟨⟩), trivial⟩
    rintro _ ⟨⟩
    exact h.machine.pending hp
  | batch hst hph hp hlt =>
    cases hx
    obtain ⟨hn, hstate⟩ := h.machine.state_at hph (Or.inr hst)
    have hbase : p.node.log.base ≤ p.node.lastApplied := by
      have := hok.caught_up hp
      rwa [hph] at this
    have hlen := h.batch_length hrel.valid hbase
    refine ⟨.handed hn ?_ hpend (by rintro _ ⟨⟩) ?_ (by rintro _ _ _ ⟨⟩), trivial⟩
    · simp only [Phase.progress, hlen, Nat.sub_self, Nat.add_zero] at hstate ⊢
      exact hstate
    · rintro _ _ ⟨⟩
      refine ⟨hlen.le, ?_⟩
      rw [hlen, Nat.sub_self, Nat.add_zero, h.batch_eq hrel.valid hbase]
      exact (List.take_prefix _ _).drop _
  | restore snap s hph hs =>
    cases hx
    obtain ⟨hn, _⟩ := h.machine.state_at hph (Or.inl (by rintro ⟨⟩))
    have hle : snap.lastIncludedIndex ≤ p.node.commitIndex := by
      have := hok.reach_le
      rwa [hph] at this
    have hdata := h.machine.restoring hph
    exact ⟨.handed hn (R.restore hdata hs) hpend (by rintro _ ⟨⟩) (by rintro _ _ ⟨⟩)
      (by rintro _ _ _ ⟨⟩), _, hle.trans (h.node.commit_le_chosen hrel.valid), hdata⟩
  | apply e rest size hph =>
    cases hx
    obtain ⟨hn, hstate⟩ := h.machine.state_at rfl (Or.inl (by rw [hph]; rintro ⟨⟩))
    obtain ⟨k, hk, hnext, hle, he, hpre⟩ := h.machine.next_chosen hph
    rw [hk] at hstate
    refine ⟨.handed hn ?_ hpend (by rintro _ ⟨⟩) ?_ (by rintro _ _ _ ⟨⟩), k, ?_, he⟩
    · change R.state (a.chosen.take (p.node.lastApplied + (size - rest.length))) _
      rw [hnext, take_succ_of_getElem? he]
      exact R.apply e hstate
    · rintro _ _ ⟨⟩
      rw [hnext]
      exact ⟨hle, hpre⟩
    · exact Valid.chosen_index hrel.valid hrel.indexed he
  | finish size phase hph hphase =>
    cases hx
    obtain ⟨hn, hstate⟩ := h.machine.state_at hph (Or.inl (by rintro ⟨⟩))
    simp only [Phase.progress, List.length_nil, Nat.sub_zero] at hstate
    rcases hphase with rfl | ⟨t, rfl, _⟩ <;>
    exact ⟨.handed hn hstate hpend (by rintro _ ⟨⟩) (by rintro _ _ ⟨⟩) (by rintro _ _ _ ⟨⟩),
      trivial⟩
  | capture i t data hph hd =>
    cases hx
    obtain ⟨hn, hstate⟩ := h.machine.state_at hph (Or.inl (by rintro ⟨⟩))
    rw [hph] at hok
    refine ⟨.handed hn hstate hpend (by rintro _ ⟨⟩) (by rintro _ _ ⟨⟩) ?_, trivial⟩
    rintro _ _ _ ⟨⟩
    rw [(hok.capture rfl).1]
    exact R.snapshot hstate hd
  | credit index hph | skip i t data hph hle | save i t data hph hb =>
    cases hx
    obtain ⟨hn, hstate⟩ := h.machine.state_at hph (Or.inl (by rintro ⟨⟩))
    exact ⟨.handed hn hstate hpend (by rintro _ ⟨⟩) (by rintro _ _ ⟨⟩) (by rintro _ _ _ ⟨⟩),
      trivial⟩
  | panic e _ => cases hx

theorem Alive.compacts (h : Alive R cfg n a disk p) (hrel : Related c fresh n a p.node)
    {i t : ℕ} {data : D} (hph : p.phase = .captured i t data) (hb : p.node.log.base < i) :
    ActsAs c n a { a with base := update a.base n i } ∧
      NodeRel { a with base := update a.base n i } n (p.node.compacted i t) := by
  have hok := h.live.applier
  rw [hph] at hok
  have hle : i ≤ p.node.commitIndex := hok.reach_le
  have hi : i ≤ a.commit n := by
    rw [h.node.commit]
    exact hle
  have htake := Invariant.take_commit hrel.valid n hi
  refine ⟨.single (.compact a n i (by rw [h.node.base]; exact hb.le) hi), ?_⟩
  refine ⟨h.node.term, h.node.role, h.node.voted, update_self _ _ _, h.node.commit, ?_, ?_⟩
  · change a.log n = a.chosen.take i ++ p.node.log.entries.drop (i - p.node.log.base)
    rw [← h.node.drop hrel.valid hb.le, ← htake, List.take_append_drop]
  · have hterm := (hok.capture rfl).2 hb.le
    rw [h.node.termAt hrel.valid h.live.wf.numbered hb.le (hle.trans h.live.wf.commit_le)] at hterm
    change t = termBefore LogEntry.term a.chosen i
    rw [← Option.some.inj hterm]
    exact termBefore_congr htake

theorem Alive.applier_reaction (h : Alive R cfg n a disk p) (hrel : Related c fresh n a p.node)
    {o : StepOutcome σ D} (ho : p.applier M = some o) :
    ∃ a', Reaction R c fresh cfg n a disk p o a' ∧ ∀ {p' out}, o.result = .ok (p', out) →
      Observed R a' out ∧ Subdued p.node p'.node ∧ out.Silent := by
  have hs := p.applier_step h.live.wf h.live.applier ho
  have hlive := fun x hx => hs.live (x := x) h.live hx
  have hmach : ∀ {p' out}, o.result = .ok (p', out) → MachineRel R a p' ∧ Observed R a out :=
    fun hx => hs.machineRel h hrel hx
  -- in all but two cases the node changes only what the protocol does not see
  have hsame : ∀ {p' out}, o = ⟨[], .ok (p', out)⟩ →
      (∃ pending applied, p'.node =
        { p.node with pendingSnapshot := pending, lastApplied := applied }) → out.Silent →
      ∃ a', Reaction R c fresh cfg n a disk p o a' ∧ ∀ {p' out}, o.result = .ok (p', out) →
        Observed R a' out ∧ Subdued p.node p'.node ∧ out.Silent := by
    rintro p' out rfl ⟨pending, applied, hnode⟩ hsilent
    obtain ⟨hm, hobs⟩ := hmach rfl
    refine ⟨a, ⟨.refl n a, hrel.indexed, hrel.unstale, ?_, by rintro _ ⟨⟩⟩, ?_⟩
    · rintro _ _ ⟨⟩
      refine ⟨⟨hlive _ rfl, ?_, ?_, hm, h.saved⟩, by rw [hnode]⟩
      · rw [hnode]
        exact h.node.of_same rfl rfl rfl rfl rfl
      · rw [hnode]
        exact h.matched
    · rintro _ _ ⟨⟩
      refine ⟨hobs, ?_, hsilent⟩
      rw [hnode]
      exact ⟨fun hs => ⟨hs, rfl⟩, fun hs => ⟨hs, rfl, rfl⟩⟩
  cases hs with
  | save i t data hph hb =>
    obtain ⟨hm, hobs⟩ := hmach rfl
    obtain ⟨hacts, hnode⟩ := h.compacts hrel hph hb
    refine ⟨_, ⟨hacts, hrel.indexed, hrel.unstale, ?_, by rintro _ ⟨⟩⟩, ?_⟩
    · rintro _ _ ⟨⟩
      refine ⟨⟨hlive _ rfl, hnode, h.matched, ⟨hm.initial, hm.machine, hm.pending, hm.restoring,
        hm.applying, hm.captured⟩, ?_⟩, le_rfl⟩
      rintro _ ⟨⟩
      exact h.machine.captured hph
    · rintro _ _ ⟨⟩
      exact ⟨trivial, ⟨fun hs => ⟨hs, rfl⟩, fun hs => ⟨hs, rfl, rfl⟩⟩, trivial⟩
  | panic e he =>
    obtain ⟨a', hacts, hx, hf, hdead⟩ := h.dies hrel
    refine ⟨a', ⟨hacts, hx, hf, by rintro _ _ ⟨⟩, ?_⟩, by rintro _ _ ⟨⟩⟩
    rintro _ ⟨⟩
    exact ⟨hdead, fun _ => he⟩
  | _ => exact hsame rfl ⟨_, _, rfl⟩ trivial

end Reactions

end Raft
