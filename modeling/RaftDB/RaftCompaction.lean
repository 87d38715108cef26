import RaftDB.RaftApplierBounds
import RaftDB.RaftCrashRecovery
import RaftDB.RaftAppendSpec
import RaftDB.StorageTornTail

/-!
# Threshold compaction

`maybeSnapshotLocked` captures the state machine at `lastApplied`, saves it as a snapshot and drops
what it covers from the log. Handlers run while the capture is serialized. The compaction changes
nothing beyond the new boundary, and since the log reaches at least to it, the files recover to the
node's log at every point, and so does everything that is written to them later.
-/
namespace Raft

open Storage RaftNode TransitionSystem

variable {σ D : Type} {I : Snapshot D → Prop}

section Cuts

theorem Move.saves {rn rn' : RaftNode D} {ws : List (StoreWrite D)} (hm : Move I rn ws rn')
    {snap : Snapshot D} (hw : .saveSnapshot snap ∈ ws) : I snap := by
  cases hm with
  | install x hi _ =>
    simp only [List.mem_cons, StoreWrite.saveSnapshot.injEq, reduceCtorEq, List.not_mem_nil,
      or_false] at hw
    rw [hw]
    exact hi
  | append new _ =>
    obtain ⟨e, _, he⟩ := List.mem_map.mp hw
    cases he
  | cut start _ _ _ => simp [truncateSuffix] at hw
  | _ => simp at hw

theorem Moves.saves {rn rn' : RaftNode D} {ws : List (StoreWrite D)} (hm : Moves I rn ws rn')
    {snap : Snapshot D} (hw : .saveSnapshot snap ∈ ws) : I snap := by
  induction hm with
  | refl => cases hw
  | tail _ hm ih =>
    rcases List.mem_append.mp hw with hw | hw
    · exact ih hw
    · exact hm.saves hw

theorem Move.base_eq {rn rn' : RaftNode D} {ws : List (StoreWrite D)} (hm : Move I rn ws rn')
    (hi : ∀ snap, ¬I snap) : rn'.log.base = rn.log.base := by
  cases hm with
  | adopt term _ => rw [inTerm_log]
  | install snap h _ => exact absurd h (hi snap)
  | _ => rfl

theorem Moves.base_eq {rn rn' : RaftNode D} {ws : List (StoreWrite D)} (hm : Moves I rn ws rn')
    (hi : ∀ snap, ¬I snap) : rn'.log.base = rn.log.base := by
  induction hm with
  | refl => rfl
  | tail _ hm ih => exact (hm.base_eq hi).trans ih

def Input.isInstall : Input D → Bool
  | .installSnapshot _ => true
  | _ => false

theorem not_installs {p : Proc σ D} {i : Input D} (hi : i.isInstall = false)
    (snap : Snapshot D) : ¬p.Installs i snap := by
  rintro ⟨args, rfl, _⟩
  cases hi

theorem tornBy_of_no_saves {disk : Disk D} {ws : List (StoreWrite D)}
    (h : ∀ snap, .saveSnapshot snap ∉ ws) : tornBy disk ws = false := by
  rw [tornBy]
  split
  · rename_i snap es hlast _
    exact absurd (List.mem_of_getLast? hlast) (h snap)
  · rfl

theorem Live.never_torn {M : StateMachine σ D} {cfg : Config} {disk : Disk D} {p : Proc σ D}
    (h : Live cfg disk p) {i : Input D} (hni : i.isInstall = false) {o : StepOutcome σ D}
    (ho : p.Acts M i o) (k : ℕ) : tornBy disk (o.writes.take k) = false := by
  have hquiet : o.writes = [] → tornBy disk (o.writes.take k) = false := by
    intro hnil
    rw [hnil, List.take_nil]
    exact tornBy_of_no_saves (by simp)
  rcases ho with ⟨rn', hm, _⟩ | ⟨p', out, rfl, _⟩ | ⟨_, happ⟩
  · apply tornBy_of_no_saves
    intro snap hmem
    exact not_installs hni snap (hm.saves (List.mem_of_mem_take hmem))
  · exact hquiet rfl
  · cases p.applier_step h.wf h.applier happ with
    | save i t data hph hb =>
      have ha := h.applier
      rw [hph] at ha
      have hreach : i ≤ p.node.log.lastLogIndex := ha.reach_le.trans h.wf.commit_le
      obtain rfl | rfl | hk : k = 0 ∨ k = 1 ∨ 2 ≤ k := by omega
      · exact tornBy_of_no_saves (by simp)
      · obtain ⟨covered, hload, hc⟩ := h.mirrors.wal
        have hlast := h.wf.numbered.lastLogIndex_eq
        have hne : p.node.log.entries ≠ [] := by
          intro hnil
          rw [hnil, List.length_nil] at hlast
          omega
        have hend : (covered ++ p.node.log.entries).getLast? =
            some (p.node.log.entries.getLast hne) := by
          rw [List.getLast?_append, List.getLast?_eq_some_getLast hne, Option.some_or]
        have hindex := h.wf.numbered.last_index (List.getLast?_eq_some_getLast hne)
        have hwal : loadEntries (disk.writeAll [.saveSnapshot ⟨i, t, data⟩]).wal =
            .ok (covered ++ p.node.log.entries) := hload
        change tornBy disk [.saveSnapshot ⟨i, t, data⟩] = false
        rw [tornBy, hwal]
        simp only [List.getLast?_singleton, hend, decide_eq_false_iff_not]
        omega
      · rw [List.take_of_length_le (by simpa using hk)]
        rfl
    | _ => exact hquiet rfl

end Cuts

section Later

variable {M : StateMachine σ D} {cfg : Config} {s t : Site σ D}

def NoInstall (_ : Site σ D) : SiteEvent D → Prop
  | .input i | .crashDuring i _ => i.Numbered ∧ i.isInstall = false
  | _ => True

instance (s : Site σ D) : (e : SiteEvent D) → Decidable (NoInstall s e)
  | .input i | .crashDuring i _ =>
    inferInstanceAs (Decidable (i.Numbered ∧ i.isInstall = false))
  | .boot | .crash => .isTrue trivial

/-- From here on, while no index overflows, the files recover to the node's log. -/
def StaysRecoverable (M : StateMachine σ D) (cfg : Config) (s : Site σ D) : Prop :=
  ∀ t, Runs (Site.stepUint64 M cfg) (fun s e => NoInstall s e ∧ NoOverflow s e) s t →
    ∃ back, newNodeUint64 cfg t.disk = .ok back ∧ ∀ p, t.proc = some p → back.log = p.node.log

/-- Snapshot and log file fit the process; the hard state plays no role for the log. -/
structure Site.Recoverable (cfg : Config) (s : Site σ D) : Prop where
  sound : ∃ hs, Site.Sound cfg ⟨{ s.disk with hardState := hs }, s.proc⟩
  typed : s.disk.Uint64

theorem writeAll_with_hardState (disk : Disk D) (hs : Option HardState) (ws : List (StoreWrite D)) :
    ∃ hs', ({ disk with hardState := hs } : Disk D).writeAll ws =
      { disk.writeAll ws with hardState := hs' } := by
  induction ws generalizing disk hs with
  | nil => exact ⟨hs, rfl⟩
  | cons w ws ih =>
    cases w with
    | saveHardState x => exact ⟨_, rfl⟩
    | writeRecord r => exact ih (disk.write (.writeRecord r)) hs
    | saveSnapshot snap => exact ih (disk.write (.saveSnapshot snap)) hs
    | compact entries => exact ih (disk.write (.compact entries)) hs

theorem Site.Recoverable.crashed (h : s.Recoverable cfg) :
    Site.Recoverable cfg (⟨s.disk, none⟩ : Site σ D) := by
  obtain ⟨hs, hsound⟩ := h.sound
  exact ⟨⟨hs, hsound.down⟩, h.typed⟩

theorem Site.Recoverable.live (h : s.Recoverable cfg) {p : Proc σ D} (hp : s.proc = some p) :
    ∃ hs, Live cfg { s.disk with hardState := hs } p := by
  obtain ⟨hs, hsound⟩ := h.sound
  exact ⟨hs, (hsound.live hp).1⟩

theorem newNodeUint64_of_replays {disk : Disk D} {log : RaftLog} (hd : disk.Uint64)
    (hcfg : checkConfig cfg.withDefaults = none) (hs : boundary disk.snapshot = log.sentinel)
    (hr : Replays disk.wal log) (hn : log.Numbered) :
    ∃ back, newNodeUint64 cfg disk = .ok back ∧ back.log = log := by
  obtain ⟨back, hback, hlog⟩ := newNode_of_replays hcfg hs hr hn
  exact ⟨back, newNodeUint64_of_newNode hd hback, hlog⟩

theorem Site.Recoverable.back (h : s.Recoverable cfg)
    (hcfg : checkConfig cfg.withDefaults = none) :
    ∃ back, newNodeUint64 cfg s.disk = .ok back ∧ ∀ p, s.proc = some p → back.log = p.node.log := by
  cases hp : s.proc with
  | none =>
    obtain ⟨hs, ⟨d, hd⟩, _⟩ := h.sound
    obtain ⟨back, hback, _⟩ := newNodeUint64_of_replays h.typed hcfg hd.sentinel hd.wal d.numbered
    exact ⟨back, hback, by rintro _ ⟨⟩⟩
  | some p =>
    obtain ⟨hs, hlive⟩ := h.live hp
    obtain ⟨back, hback, hlog⟩ := newNodeUint64_of_replays h.typed hcfg hlive.mirrors.sentinel
      hlive.mirrors.wal hlive.wf.numbered
    refine ⟨back, hback, ?_⟩
    rintro _ ⟨⟩
    exact hlog

theorem Site.Recoverable.step (h : s.Recoverable cfg) {e : SiteEvent D} (he : NoInstall s e)
    (hover : NoOverflow s e) (hst : s.stepUint64 M cfg e = some t) : t.Recoverable cfg := by
  obtain ⟨hs, hsound⟩ := h.sound
  cases Site.stepWith_cases hst with
  | boot p hnone hboot =>
    obtain ⟨rn, hrn, rfl⟩ := booted_eq hboot
    obtain ⟨d, hd⟩ := hsound.durable
    have hactual : Mirrors s.disk ⟨(s.disk.hardState.getD ⟨0, None⟩).currentTerm,
        (s.disk.hardState.getD ⟨0, None⟩).votedFor, d.log, d.numbered⟩ :=
      ⟨rfl, hd.sentinel, hd.wal⟩
    have hsite : Site.Sound cfg (⟨s.disk, none⟩ : Site σ D) := ⟨⟨_, hactual⟩, by rintro _ ⟨⟩⟩
    have hnew := hactual.newNode_eq (newNodeFrom_ok.mp hrn).1
    rw [newNodeUint64_of_newNode h.typed hnew] at hrn
    cases hrn
    exact ⟨⟨s.disk.hardState, hsite.booted hnew M⟩, h.typed⟩
  | input i p o hp ho =>
    obtain ⟨hentries, hroom⟩ := hover i rfl
    have hlive := (hsound.live hp).1
    have hacts := p.handleUint64_cases hlive.wf he.1 (hroom p hp) ho
    obtain ⟨hs', hws⟩ := writeAll_with_hardState s.disk hs o.writes
    have hafter := hsound.acts hp hacts
    have htyped : ({ s.disk with hardState := hs } : Disk D).Uint64 := h.typed
    have hkept := hlive.writes_uint64 htyped hentries (hroom p hp) ho (List.Subset.refl _)
    dsimp only at hafter
    rw [hws] at hafter hkept
    exact ⟨⟨hs', hafter⟩, hkept⟩
  | crash p hp => exact h.crashed
  | crashDuring i written p o hp ho =>
    obtain ⟨hentries, hroom⟩ := hover i rfl
    have hlive := (hsound.live hp).1
    have hacts := p.handleUint64_cases hlive.wf he.1 (hroom p hp) ho
    obtain ⟨hs', hws⟩ := writeAll_with_hardState s.disk hs (o.writes.take written)
    have hcut := hlive.cut hacts (hlive.never_torn he.2 hacts written)
    have htyped : ({ s.disk with hardState := hs } : Disk D).Uint64 := h.typed
    have hkept := hlive.writes_uint64 htyped hentries (hroom p hp) ho (List.take_subset written _)
    dsimp only at hcut
    rw [hws] at hcut hkept
    exact ⟨⟨hs', hcut, by rintro _ ⟨⟩⟩, hkept⟩

theorem Site.Recoverable.stays (h : s.Recoverable cfg)
    (hcfg : checkConfig cfg.withDefaults = none) : StaysRecoverable M cfg s := by
  intro t hrun
  have ht : t.Recoverable cfg :=
    hrun.invariant (P := Site.Recoverable cfg) h fun _ _ _ hu he hst => hu.step he.1 he.2 hst
  exact ht.back hcfg

end Later

section Window

variable {M : StateMachine σ D} {cfg : Config} {s t : Site σ D} {p q : Proc σ D}
  {phase : Phase D}

def Phase.isSerializing : Phase D → Bool
  | .serializing _ _ => true
  | _ => false

/-- What may happen while the lock is released: the state machine is serialized, and every handler
may run but the one that installs snapshots. -/
def WhileSerializing (s : Site σ D) : SiteEvent D → Prop
  | .input .applier => s.proc.all (·.phase.isSerializing) = true
  | .input i => i.Numbered ∧ i.isInstall = false
  | _ => False

instance (s : Site σ D) : (e : SiteEvent D) → Decidable (WhileSerializing s e)
  | .input .applier => inferInstanceAs (Decidable (_ = true))
  | .input .start | .input .stop | .input .electionTimeout | .input (.propose _)
  | .input (.replicate _) | .input (.requestVote _) | .input (.appendEntries _)
  | .input (.installSnapshot _) | .input (.voteReply _ _) | .input (.appendReply _ _ _ _)
  | .input (.snapshotReply _ _ _ _) => inferInstanceAs (Decidable (_ ∧ _))
  | .boot | .crash | .crashDuring _ _ => .isFalse id

theorem WhileSerializing.noInstall {e : SiteEvent D} (h : WhileSerializing s e) :
    NoInstall s e := by
  cases e with
  | input i =>
    cases i with
    | applier => exact ⟨trivial, rfl⟩
    | _ => exact h
  | _ => exact h.elim

structure Captures (p : Proc σ D) (phase : Phase D) (q : Proc σ D) : Prop where
  base : q.node.log.base = p.node.log.base
  applied : q.node.lastApplied = p.node.lastApplied
  phase : q.phase = phase ∨ ∃ i t data, phase = .serializing i t ∧ q.phase = .captured i t data

theorem Captures.handle {disk : Disk D} (hc : Captures p phase q) (hw : q.node.Wf)
    (ha : ApplierOk q.node q.phase) {i : Input D}
    (he : WhileSerializing (⟨disk, some q⟩ : Site σ D) (.input i)) {o : StepOutcome σ D}
    (ho : q.Acts M i o) {x : Proc σ D × Output D} (hx : o.result = .ok x) :
    Captures p phase x.1 := by
  have hno := he.noInstall
  rcases ho with ⟨rn', hm, hr⟩ | ⟨q', out, rfl, hf⟩ | ⟨rfl, happ⟩
  · rw [hr x hx]
    refine ⟨(hm.base_eq (not_installs hno.2)).trans hc.base, ?_, hc.phase⟩
    exact hm.settings.2.2.2.2.trans hc.applied
  · cases hx
    obtain ⟨hph, a, b, c, hnode⟩ := hf.same
    refine ⟨?_, ?_, by rw [hph]; exact hc.phase⟩
    · rw [hnode]
      exact hc.base
    · rw [hnode]
      exact hc.applied
  · have hser : q.phase.isSerializing = true := he
    cases q.applier_step hw ha happ with
    | capture i t data hph _ =>
      cases hx
      refine ⟨hc.base, hc.applied, Or.inr ⟨i, t, data, ?_, rfl⟩⟩
      rcases hc.phase with heq | ⟨i', t', data', _, heq⟩
      · rw [← heq, hph]
      · rw [hph] at heq
        cases heq
    | panic e _ => cases hx
    | park _ _ hph _ | batch _ hph _ _ | restore _ _ hph _ | credit _ hph | apply _ _ _ hph
    | finish _ _ hph _ | skip _ _ _ hph _ | save _ _ _ hph _ =>
      rw [hph] at hser
      cases hser

structure Capturing (cfg : Config) (p : Proc σ D) (phase : Phase D) (s : Site σ D) : Prop where
  recoverable : s.Recoverable cfg
  captures : ∀ {q}, s.proc = some q → Captures p phase q

theorem Capturing.step (h : Capturing cfg p phase s) {e : SiteEvent D}
    (he : WhileSerializing s e) (hover : NoOverflow s e) (hst : s.stepUint64 M cfg e = some t) :
    Capturing cfg p phase t := by
  refine ⟨h.recoverable.step he.noInstall hover hst, ?_⟩
  cases Site.stepWith_cases hst with
  | input i q o hq ho =>
    intro q' hq'
    obtain ⟨out, hres⟩ := StepOutcome.process_eq hq'
    obtain ⟨hs, hlive⟩ := h.recoverable.live hq
    have hacts := q.handleUint64_cases hlive.wf he.noInstall.1 ((hover i rfl).2 q hq) ho
    have he' : WhileSerializing (⟨s.disk, some q⟩ : Site σ D) (.input i) := by
      rw [← hq]
      exact he
    exact (h.captures hq).handle hlive.wf hlive.applier he' hacts hres
  | _ => exact he.elim

end Window

section Compaction

variable {M : StateMachine σ D} {cfg : Config} {disk : Disk D} {p q : Proc σ D} {rn : RaftNode D}
  {i t : ℕ} {data : D}

/-- A compaction at the index is invisible from there on. -/
structure Compacts (log log' : RaftLog) (index : ℕ) : Prop where
  base : log'.base = index
  entryAt : ∀ j, index < j → log'.entryAt j = log.entryAt j
  lastLogIndex : log'.lastLogIndex = log.lastLogIndex
  lastLogTerm : log'.lastLogTerm = log.lastLogTerm
  termAt : ∀ j, index ≤ j → log'.termAt j = log.termAt j

theorem compacts (hw : rn.Wf) (hb : rn.log.base < i) (hc : i ≤ rn.commitIndex)
    (ht : rn.log.termAt i = some t) : Compacts rn.log (rn.compacted i t).log i := by
  have hn := hw.numbered
  have hn' := (compacted_wf hw hb hc t).numbered
  have hbase : (rn.compacted i t).log.base = i := rfl
  have hentry : ∀ j, i < j → (rn.compacted i t).log.entryAt j = rn.log.entryAt j := by
    intro j hj
    rw [RaftLog.entryAt_above _ (by rw [hbase]; exact hj), rn.log.entryAt_above (by omega), hbase]
    change (rn.log.entries.drop (i - rn.log.base))[j - i - 1]? = _
    rw [List.getElem?_drop, show i - rn.log.base + (j - i - 1) = j - rn.log.base - 1 by omega]
  have hterm : ∀ j, i ≤ j → (rn.compacted i t).log.termAt j = rn.log.termAt j := by
    intro j hj
    rcases Nat.lt_or_eq_of_le hj with hlt | rfl
    · rw [RaftLog.termAt_eq, RaftLog.termAt_eq, hentry j hlt]
    · rw [ht]
      exact (rn.compacted i t).log.termAt_base
  have hlast : (rn.compacted i t).log.lastLogIndex = rn.log.lastLogIndex := by
    have hl := hc.trans hw.commit_le
    rw [hn.lastLogIndex_eq] at hl ⊢
    rw [hn'.lastLogIndex_eq, hbase]
    change i + (rn.log.entries.drop (i - rn.log.base)).length = _
    rw [List.length_drop]
    omega
  refine ⟨hbase, hentry, hlast, ?_, hterm⟩
  have heq := hterm _ (hc.trans hw.commit_le)
  rw [hn.termAt_last, ← hlast, hn'.termAt_last] at heq
  exact Option.some.inj heq

theorem applier_saves (hw : q.node.Wf) (ha : ApplierOk q.node q.phase)
    (hph : q.phase = .captured i t data) (hb : q.node.log.base < i) :
    q.applier M = some ⟨[.saveSnapshot ⟨i, t, data⟩,
        .compact (q.node.log.entries.drop (i - q.node.log.base))],
      .ok ({ q with node := q.node.compacted i t, phase := .waiting }, .quiet)⟩ := by
  rw [hph] at ha
  have hl : i ≤ q.node.log.lastLogIndex := ha.reach_le.trans hw.commit_le
  rw [Proc.applier, hph]
  simp only [Proc.saveCaptured]
  rw [if_neg (not_le.mpr hb), compactLogLocked_eq hw.numbered hb hl]
  rfl

/-- What is on disk at any point of the two writes recovers, to the old log or to the new one. -/
theorem Live.saved (h : Live cfg disk q) (hph : q.phase = .captured i t data)
    (hb : q.node.log.base < i) (k : ℕ) :
    ∃ d, Mirrors (disk.writeAll ([.saveSnapshot ⟨i, t, data⟩,
        .compact (q.node.log.entries.drop (i - q.node.log.base))].take k)) d ∧
      d.log = if k = 0 then q.node.log else (q.node.compacted i t).log := by
  have ha := h.applier
  rw [hph] at ha
  have hc : i ≤ q.node.commitIndex := ha.reach_le
  have hw := compacted_wf h.wf hb hc t
  obtain rfl | rfl | hk : k = 0 ∨ k = 1 ∨ 2 ≤ k := by omega
  · exact ⟨_, h.mirrors, rfl⟩
  · refine ⟨⟨q.node.currentTerm, q.node.votedFor, (q.node.compacted i t).log, hw.numbered⟩,
      ⟨h.mirrors.hardState, rfl, ?_⟩, rfl⟩
    have hadvance : Replays disk.wal ⟨⟨t, i, []⟩, _⟩ :=
      h.mirrors.wal.advance h.wf.numbered hb.le (hc.trans h.wf.commit_le)
    exact hadvance
  · rw [List.take_of_length_le (by simpa using hk), if_neg (by omega)]
    exact ⟨⟨q.node.currentTerm, q.node.votedFor, (q.node.compacted i t).log, hw.numbered⟩,
      ⟨h.mirrors.hardState, rfl, Replays.compact hw.numbered⟩, rfl⟩

theorem Live.saved_recovers {hs : Option HardState}
    (h : Live cfg { disk with hardState := hs } q) (hd : disk.Uint64) (hcheck : checkConfig cfg.withDefaults = none)
    (hph : q.phase = .captured i t data) (hb : q.node.log.base < i) (k : ℕ) :
    let writes := [.saveSnapshot ⟨i, t, data⟩,
      .compact (q.node.log.entries.drop (i - q.node.log.base))].take k
    StaysRecoverable M cfg ⟨disk.writeAll writes, none⟩ ∧
      ∃ back, newNodeUint64 cfg (disk.writeAll writes) = .ok back ∧
        back.log = if k = 0 then q.node.log else (q.node.compacted i t).log := by
  intro writes
  obtain ⟨d, hm, hdlog⟩ := h.saved hph hb k
  obtain ⟨hs', hws⟩ := writeAll_with_hardState disk hs writes
  rw [hws] at hm
  have htyped : (disk.writeAll writes).Uint64 := by
    refine hd.writes fun w hw e he => ?_
    rcases List.mem_pair.mp (List.mem_of_mem_take hw) with rfl | rfl
    · cases he
    · exact hd e (h.mirrors.mem_wal (List.mem_of_mem_drop he))
  have hrec : Site.Recoverable cfg (⟨disk.writeAll writes, none⟩ : Site σ D) :=
    ⟨⟨hs', ⟨d, hm⟩, by rintro _ ⟨⟩⟩, htyped⟩
  obtain ⟨back, hback, hlog⟩ : ∃ back, newNodeUint64 cfg (disk.writeAll writes) = .ok back ∧
      back.log = d.log :=
    newNodeUint64_of_replays htyped hcheck hm.sentinel hm.wal d.numbered
  exact ⟨hrec.stays hcheck, back, hback, hlog.trans hdlog⟩

theorem Site.Recoverable.applier {s : Site σ D} {q' : Proc σ D} {writes : List (StoreWrite D)}
    (h : s.Recoverable cfg) (hq : s.proc = some q)
    (hstep : q.applier M = some ⟨writes, .ok (q', .quiet)⟩) :
    Site.Recoverable cfg ⟨s.disk.writeAll writes, some q'⟩ := by
  have hover : NoOverflow s (.input .applier) := by
    rintro _ ⟨⟩
    exact ⟨by rintro _ ⟨⟩, fun _ _ => trivial⟩
  refine h.step (M := M) (e := .input .applier) ⟨trivial, rfl⟩ hover ?_
  have hhandle : q.handleUint64 M .applier = _ := hstep
  rw [Site.stepUint64, Site.stepWith, hq]
  simp only [hhandle]
  rfl

theorem Captures.base_lt {phase : Phase D} (h : Captures p phase q)
    (hph : q.phase = .captured i t data) (hi : i = q.node.lastApplied)
    (hlt : phase ≠ .waiting → p.node.log.base < p.node.lastApplied) : q.node.log.base < i := by
  rw [hi, h.base, h.applied]
  apply hlt
  rintro rfl
  rcases h.phase with hwait | ⟨_, _, _, hserial, _⟩
  · rw [hph] at hwait
    cases hwait
  · cases hserial

theorem maybeSnapshot_eq (hw : rn.Wf) (ha : rn.lastApplied ≤ rn.commitIndex)
    (hthr : rn.cfg.snapshotThreshold ≤ uint64Sub rn.lastApplied rn.log.base)
    (hb : rn.log.base ≤ rn.lastApplied) :
    (rn.cfg.snapshotThreshold = 0 ∧ Proc.maybeSnapshot rn = .ok .waiting) ∨
      0 < rn.cfg.snapshotThreshold ∧ ∃ term, rn.log.termAt rn.lastApplied = some term ∧
        Proc.maybeSnapshot rn = .ok (.serializing rn.lastApplied term) := by
  by_cases h0 : rn.cfg.snapshotThreshold = 0
  · exact Or.inl ⟨h0, if_pos h0⟩
  · obtain ⟨term, hterm⟩ := hw.numbered.termAt_isSome hb (ha.trans hw.commit_le)
    refine Or.inr ⟨by omega, term, hterm, ?_⟩
    rw [Proc.maybeSnapshot, if_neg h0, if_neg (not_lt.mpr hthr), hterm]

/-- Behind the boundary the difference wraps around: it passes for a log beyond any threshold, and
the slot that it gives is beyond the log. -/
theorem maybeSnapshot_panics (hn : rn.log.Numbered) (hlast : rn.log.lastLogIndex < UInt64.size)
    (hpos : 0 < rn.cfg.snapshotThreshold)
    (hthr : rn.cfg.snapshotThreshold ≤ uint64Sub rn.lastApplied rn.log.base)
    (hb : rn.lastApplied < rn.log.base) :
    Proc.maybeSnapshot rn = .error .indexOutOfRange := by
  have hslot : rn.log.termAt rn.lastApplied = none := by
    rw [hn.lastLogIndex_eq] at hlast
    have hlen : rn.log.slots.length ≤ uint64Sub rn.lastApplied rn.log.base := by
      rw [RaftLog.slots, List.length_cons, uint64Sub, if_neg (not_le.mpr hb)]
      omega
    rw [RaftLog.termAt, List.getElem?_eq_none hlen]
    rfl
  rw [Proc.maybeSnapshot, if_neg (by omega), if_neg (not_lt.mpr hthr), hslot]

theorem capturing_start (hw : p.node.Wf) (ha : ApplierOk p.node .waiting)
    (hcfg : p.node.cfg = cfg.withDefaults) (hcheck : checkConfig cfg.withDefaults = none)
    (hd : disk.Uint64) (hs : boundary disk.snapshot = p.node.log.sentinel)
    (hr : Replays disk.wal p.node.log) {phase : Phase D} (hphase : phase = .waiting ∨ ∃ term, phase =
      .serializing p.node.lastApplied term ∧ p.node.log.termAt p.node.lastApplied = some term) :
    Capturing cfg p phase (⟨disk, some { p with phase := phase }⟩ : Site σ D) := by
  have hmirrors : Mirrors { disk with hardState := some ⟨p.node.currentTerm, p.node.votedFor⟩ }
      (p.node.durable hw) := ⟨rfl, hs, hr⟩
  have happ : ApplierOk p.node phase := by
    rcases hphase with rfl | ⟨term, rfl, hterm⟩
    · exact ha
    · refine ⟨le_rfl, ha.reach_le, ha.caught_up, ha.parked, ?_⟩
      rintro _ _ ⟨⟩
      exact ⟨rfl, fun _ => hterm⟩
  refine ⟨⟨⟨_, ⟨_, hmirrors⟩, ?_⟩, hd⟩, ?_⟩
  · rintro _ ⟨⟩
    exact ⟨⟨hw, hmirrors, happ, hcfg⟩, hcheck⟩
  · rintro _ ⟨⟩
    exact ⟨rfl, rfl, Or.inl rfl⟩

theorem replays_of_threshold {loaded : List LogEntry} (hw : rn.Wf)
    (ha : rn.lastApplied ≤ rn.commitIndex) (hthr : rn.log.base < rn.lastApplied)
    (hload : loadEntries disk.wal = .ok loaded)
    (hrec : recoverEntries rn.log.base (rn.log.base + 1) loaded = .ok rn.log.entries) :
    Replays disk.wal rn.log := by
  apply (replays_iff_next hload hrec).mpr
  right
  apply next_of_entries hload hrec
  intro hnil
  have hlast := hw.numbered.lastLogIndex_eq
  have hcommit := hw.commit_le
  rw [hnil, List.length_nil] at hlast
  omega

theorem maybeSnapshot_capturing (hw : p.node.Wf) (ha : ApplierOk p.node .waiting)
    (hcfg : p.node.cfg = cfg.withDefaults) (hcheck : checkConfig cfg.withDefaults = none)
    (hthr : p.node.cfg.snapshotThreshold ≤ uint64Sub p.node.lastApplied p.node.log.base)
    (hb : p.node.log.base ≤ p.node.lastApplied) (hd : disk.Uint64)
    (hs : boundary disk.snapshot = p.node.log.sentinel) (hr : Replays disk.wal p.node.log) :
    ∃ phase, Proc.maybeSnapshot p.node = .ok phase ∧
      Capturing cfg p phase ⟨disk, some { p with phase := phase }⟩ ∧
      (p.node.cfg.snapshotThreshold = 0 ∧ phase = .waiting ∨
        0 < p.node.cfg.snapshotThreshold ∧
          ∃ term, phase = .serializing p.node.lastApplied term) := by
  rcases maybeSnapshot_eq hw ha.reach_le hthr hb with ⟨h0, heq⟩ | ⟨hpos, term, hterm, heq⟩
  · exact ⟨_, heq, capturing_start hw ha hcfg hcheck hd hs hr (Or.inl rfl), Or.inl ⟨h0, rfl⟩⟩
  · exact ⟨_, heq, capturing_start hw ha hcfg hcheck hd hs hr (Or.inr ⟨term, rfl, hterm⟩),
      Or.inr ⟨hpos, term, rfl⟩⟩

/-- A compaction begins where the source's test of the threshold passes. It panics if what has been
applied lies behind the boundary. Otherwise, while no index overflows: wherever the capture is
interrupted, before the first write, between the two or behind them, and whatever else the handlers
did meanwhile, nothing beyond the captured index changes and the files recover to the log. -/
theorem threshold_compaction_transparent (M : StateMachine σ D) (cfg : Config) {disk : Disk D}
    {p : Proc σ D} {back : RaftNode D} (hw : p.node.Wf) (ha : ApplierOk p.node .waiting)
    (hcfg : p.node.cfg = cfg.withDefaults) (hlast : p.node.log.lastLogIndex < UInt64.size)
    (hthr : p.node.cfg.snapshotThreshold ≤ uint64Sub p.node.lastApplied p.node.log.base)
    (hd : disk.Uint64) (hback : newNode cfg disk = .ok back) (hlog : back.log = p.node.log)
    (hoff : p.node.cfg.snapshotThreshold = 0 → Replays disk.wal p.node.log) :
    (0 < p.node.cfg.snapshotThreshold → p.node.lastApplied < p.node.log.base →
      Proc.maybeSnapshot p.node = .error .indexOutOfRange) ∧
    (p.node.log.base ≤ p.node.lastApplied →
      ∃ phase, Proc.maybeSnapshot p.node = .ok phase ∧
        (0 < p.node.cfg.snapshotThreshold →
          ∃ term, phase = .serializing p.node.lastApplied term) ∧
        ∀ s, Runs (Site.stepUint64 M cfg) (fun s e => WhileSerializing s e ∧ NoOverflow s e)
            ⟨disk, some { p with phase := phase }⟩ s →
          StaysRecoverable M cfg ⟨s.disk, none⟩ ∧
          ∀ q, s.proc = some q →
            (∃ back, newNodeUint64 cfg s.disk = .ok back ∧ back.log = q.node.log) ∧
            ∀ i t data, q.phase = .captured i t data → i = p.node.lastApplied ∧
              ∃ writes q', q.applier M = some ⟨writes, .ok (q', .quiet)⟩ ∧
                writes = [.saveSnapshot ⟨i, t, data⟩, .compact q'.node.log.entries] ∧
                Compacts q.node.log q'.node.log i ∧
                StaysRecoverable M cfg ⟨s.disk.writeAll writes, some q'⟩ ∧
                ∀ k, StaysRecoverable M cfg ⟨s.disk.writeAll (writes.take k), none⟩ ∧
                  ∃ back, newNodeUint64 cfg (s.disk.writeAll (writes.take k)) = .ok back ∧
                    back.log = (if k = 0 then q.node.log else q'.node.log) ∧
                    ∀ j, back.log.base < j → back.log.entryAt j = q.node.log.entryAt j) := by
  refine ⟨fun hpos hlt => maybeSnapshot_panics hw.numbered hlast hpos hthr hlt, fun hbase => ?_⟩
  have hdiff : p.node.cfg.snapshotThreshold ≤ p.node.lastApplied - p.node.log.base := by
    rwa [uint64Sub_of_le hbase] at hthr
  obtain ⟨hcheck, hsentinel, loaded, hload, hrec⟩ := newNode_ok hback
  rw [hlog] at hsentinel hrec
  have hreplays : Replays disk.wal p.node.log := by
    by_cases h0 : p.node.cfg.snapshotThreshold = 0
    · exact hoff h0
    · exact replays_of_threshold hw ha.reach_le (by omega) hload hrec
  obtain ⟨phase, heq, hstart, hshape⟩ :=
    maybeSnapshot_capturing hw ha hcfg hcheck hthr hbase hd hsentinel.symm hreplays
  refine ⟨phase, heq, ?_, ?_⟩
  · intro hpos
    rcases hshape with ⟨h0, _⟩ | ⟨_, hterm⟩
    · omega
    · exact hterm
  intro s hrun
  have hs : Capturing cfg p phase s :=
    hrun.invariant (P := Capturing cfg p phase) hstart
      fun _ _ _ hu he hst => hu.step he.1 he.2 hst
  refine ⟨hs.recoverable.crashed.stays hcheck, ?_⟩
  intro q hq
  obtain ⟨hs', hlive⟩ := hs.recoverable.live hq
  obtain ⟨back', hback', hlog'⟩ := hs.recoverable.back hcheck
  refine ⟨⟨back', hback', hlog' q hq⟩, ?_⟩
  intro i t data hph
  have hc := hs.captures hq
  have happ := hlive.applier
  rw [hph] at happ
  obtain ⟨hi, hterm⟩ := happ.capture rfl
  have hb : q.node.log.base < i := by
    refine hc.base_lt hph hi fun hne => ?_
    rcases hshape with ⟨_, hwait⟩ | ⟨hpos, _⟩
    · exact absurd hwait hne
    · omega
  have hsaves := applier_saves (M := M) hlive.wf hlive.applier hph hb
  have hcompacts := compacts hlive.wf hb happ.reach_le (hterm hb.le)
  refine ⟨hi.trans hc.applied, _, _, hsaves, rfl, hcompacts,
    (hs.recoverable.applier hq hsaves).stays hcheck, fun k => ?_⟩
  obtain ⟨hstays, back'', hback'', hlog''⟩ :=
    hlive.saved_recovers (M := M) hs.recoverable.typed hcheck hph hb k
  refine ⟨hstays, back'', hback'', hlog'', ?_⟩
  by_cases hk : k = 0
  · rw [if_pos hk] at hlog''
    rw [hlog'']
    exact fun _ _ => rfl
  · rw [if_neg hk] at hlog''
    rw [hlog'']
    exact hcompacts.entryAt

def appliedTwo : Proc (List LogEntry) (List LogEntry) where
  node := { followerOfTermOne with commitIndex := 2, lastApplied := 2, started := true }
  phase := .waiting
  machine := [⟨1, 1, [1]⟩, ⟨1, 2, [2]⟩]

def replaceWhileSerializing : List (SiteEvent (List LogEntry)) :=
  [.input (.appendEntries ⟨2, "n2", 2, 1, [⟨2, 3, [4]⟩, ⟨2, 4, [5]⟩], 2⟩), .input .applier]

theorem threshold_compaction_transparent_replaced :
    ∃ s q q' back, exec (Site.stepUint64 recorder ⟨"n1", ["n2", "n3"], 2, 0, 0, 0, 0⟩)
        (fun s e => decide (WhileSerializing s e ∧ NoOverflow s e))
        ⟨filesOfTermOne, some { appliedTwo with phase := .serializing 2 1 }⟩
        replaceWhileSerializing = some s ∧
      s.proc = some q ∧ q.node.log.entryAt 3 = some ⟨2, 3, [4]⟩ ∧
      q.applier recorder = some ⟨[.saveSnapshot ⟨2, 1, appliedTwo.machine⟩,
        .compact q'.node.log.entries], .ok (q', .quiet)⟩ ∧
      q'.node.log.base = 2 ∧ q'.node.log.entryAt 3 = some ⟨2, 3, [4]⟩ ∧
      newNodeUint64 ⟨"n1", ["n2", "n3"], 2, 0, 0, 0, 0⟩
        (s.disk.writeAll [.saveSnapshot ⟨2, 1, appliedTwo.machine⟩]) = .ok back ∧
      back.log = q'.node.log := by
  have hw : appliedTwo.node.Wf := ⟨threeOfTermOne.numbered, by decide, by decide⟩
  have ha : ApplierOk appliedTwo.node .waiting :=
    ⟨le_rfl, by decide, fun _ => by decide, by rintro _ ⟨⟩, by rintro _ _ ⟨⟩⟩
  have hd : filesOfTermOne.Uint64 := by
    intro e he
    simp only [filesOfTermOne, List.mem_cons, WalRecord.append.injEq, List.not_mem_nil,
      or_false] at he
    rcases he with rfl | rfl | rfl <;> decide
  obtain ⟨_, hcompaction⟩ := threshold_compaction_transparent recorder
    ⟨"n1", ["n2", "n3"], 2, 0, 0, 0, 0⟩ hw ha rfl (by decide) (by decide) hd
    (filesOfTermOne_mirror.newNode_eq (by decide)) rfl (fun h => absurd h (by decide))
  obtain ⟨phase, hphase, _, hruns⟩ := hcompaction (by decide)
  cases (show Proc.maybeSnapshot appliedTwo.node = .ok (.serializing 2 1) from rfl).symm.trans
    hphase
  have hstate : ((exec (Site.stepUint64 recorder ⟨"n1", ["n2", "n3"], 2, 0, 0, 0, 0⟩)
      (fun s e => decide (WhileSerializing s e ∧ NoOverflow s e))
      ⟨filesOfTermOne, some { appliedTwo with phase := .serializing 2 1 }⟩
      replaceWhileSerializing).bind Site.proc).map (fun q => (q.phase, q.node.log)) =
        some (.captured 2 1 appliedTwo.machine,
          ⟨⟨0, 0, []⟩, [⟨1, 1, [1]⟩, ⟨1, 2, [2]⟩, ⟨2, 3, [4]⟩, ⟨2, 4, [5]⟩]⟩) := by
    decide +kernel
  obtain ⟨q, hbind, hpair⟩ := Option.map_eq_some_iff.mp hstate
  obtain ⟨s, hs, hq⟩ := Option.bind_eq_some_iff.mp hbind
  obtain ⟨hcaptured, hqlog⟩ := Prod.mk.inj hpair
  have hrun := runs_of_exec (fun _ _ h => of_decide_eq_true h) replaceWhileSerializing hs
  obtain ⟨_, _, q', hsaves, rfl, hcompacts, _, hcrash⟩ :=
    ((hruns s hrun).2 q hq).2 2 1 _ hcaptured
  obtain ⟨_, back, hback, hlog, _⟩ := hcrash 1
  have hentry : q.node.log.entryAt 3 = some ⟨2, 3, [4]⟩ := by
    rw [hqlog]
    rfl
  exact ⟨s, q, q', back, hs, hq, hentry, hsaves, hcompacts.base,
    (hcompacts.entryAt 3 (by decide)).trans hentry, hback, hlog⟩

/-- One entry with the largest index is applied behind a snapshot; while its capture is serialized,
another one is proposed. -/
def proposeWhileSerializing : List (SiteEvent (List LogEntry)) :=
  [.boot, .input .start, .input (.installSnapshot ⟨1, "n2", UInt64.size - 2, 1, 0, [], true⟩),
    .input .applier, .input .applier, .input .applier, .input .electionTimeout,
    .input (.propose [7]), .input .applier, .input .applier, .input .applier,
    .input (.propose [8]), .input .applier]

/-- Two ways in which a compaction goes wrong. What has been applied lies behind the boundary: the
source's test of the threshold passes, the files recover to the log, and the compaction panics. An
entry is proposed behind the largest index while the capture is serialized: it gets index 0, the
compaction drops it, and the log ends elsewhere. -/
theorem threshold_compaction_goes_wrong :
    (∃ s p back, Runs (Site.stepUint64 recorder ⟨"n1", ["n2", "n3"], 2, 0, 0, 0, 0⟩) BetweenSteps
        Site.init s ∧
      s.proc = some p ∧ p.phase = .applying [] 2 ∧ p.node.lastApplied + 2 < p.node.log.base ∧
      p.node.cfg.snapshotThreshold ≤ uint64Sub (p.node.lastApplied + 2) p.node.log.base ∧
      newNodeUint64 ⟨"n1", ["n2", "n3"], 2, 0, 0, 0, 0⟩ s.disk = .ok back ∧
      back.log = p.node.log ∧
      Proc.maybeSnapshot { p.node with lastApplied := p.node.lastApplied + 2 } =
        .error .indexOutOfRange) ∧
    ∃ s q q' t data out, Runs (Site.stepUint64 recorder ⟨"n1", [], 1, 0, 0, 0, 0⟩) BetweenSteps
        Site.init s ∧
      s.proc = some q ∧ q.phase = .captured (UInt64.size - 1) t data ∧
      q.node.log.entries = [⟨2, UInt64.size - 1, [7]⟩, ⟨2, 0, [8]⟩] ∧
      q.node.log.lastLogIndex = 0 ∧
      q.applier recorder = some ⟨[.saveSnapshot ⟨UInt64.size - 1, t, data⟩, .compact []],
        .ok (q', out)⟩ ∧
      q'.node.log.entries = [] ∧ q'.node.log.lastLogIndex = UInt64.size - 1 := by
  constructor
  · have hfacts : (exec (Site.stepUint64 recorder ⟨"n1", ["n2", "n3"], 2, 0, 0, 0, 0⟩)
        (fun s e => decide (BetweenSteps s e)) Site.init installInBatch).any (fun s =>
          s.proc.any fun p =>
            decide (p.phase = .applying [] 2 ∧ p.node.lastApplied + 2 < p.node.log.base ∧
              p.node.cfg.snapshotThreshold ≤ uint64Sub (p.node.lastApplied + 2) p.node.log.base ∧
              (newNodeUint64 ⟨"n1", ["n2", "n3"], 2, 0, 0, 0, 0⟩ s.disk).toOption.map
                (fun rn => rn.log) = some p.node.log ∧
              Proc.maybeSnapshot { p.node with lastApplied := p.node.lastApplied + 2 } =
                .error .indexOutOfRange)) = true := by decide +kernel
    obtain ⟨s, hs, hfacts⟩ := (Option.any_eq_true _ _).mp hfacts
    obtain ⟨p, hp, hfacts⟩ := (Option.any_eq_true _ _).mp hfacts
    obtain ⟨hph, hlt, hthr, hnew, hpanic⟩ := of_decide_eq_true hfacts
    obtain ⟨back, hback, hlog⟩ := Option.map_eq_some_iff.mp hnew
    exact ⟨s, p, back, runs_of_exec (fun _ _ h => of_decide_eq_true h) _ hs, hp, hph, hlt, hthr,
      eq_ok_of_toOption hback, hlog, hpanic⟩
  · have hfacts : (exec (Site.stepUint64 recorder ⟨"n1", [], 1, 0, 0, 0, 0⟩)
        (fun s e => decide (BetweenSteps s e)) Site.init proposeWhileSerializing).any (fun s =>
          s.proc.any fun q =>
            decide (q.phase = .captured (UInt64.size - 1) 2 [⟨2, UInt64.size - 1, [7]⟩] ∧
              q.node.log.entries = [⟨2, UInt64.size - 1, [7]⟩, ⟨2, 0, [8]⟩] ∧
              q.node.log.lastLogIndex = 0) &&
            (q.applier recorder).any fun o =>
              decide (o.writes = [.saveSnapshot ⟨UInt64.size - 1, 2, [⟨2, UInt64.size - 1, [7]⟩]⟩,
                .compact []]) &&
              o.process.any fun q' => decide (q'.node.log.entries = [] ∧
                q'.node.log.lastLogIndex = UInt64.size - 1)) = true := by decide +kernel
    obtain ⟨s, hs, hfacts⟩ := (Option.any_eq_true _ _).mp hfacts
    obtain ⟨q, hq, hfacts⟩ := (Option.any_eq_true _ _).mp hfacts
    obtain ⟨hbefore, hafter⟩ := Bool.and_eq_true_iff.mp hfacts
    obtain ⟨hph, hentries, hlast⟩ := of_decide_eq_true hbefore
    obtain ⟨o, ho, hafter⟩ := (Option.any_eq_true _ _).mp hafter
    obtain ⟨hwrites, hafter⟩ := Bool.and_eq_true_iff.mp hafter
    obtain ⟨q', hq', hafter⟩ := (Option.any_eq_true _ _).mp hafter
    obtain ⟨hempty, hend⟩ := of_decide_eq_true hafter
    obtain ⟨out, hres⟩ := StepOutcome.process_eq hq'
    obtain ⟨writes, result⟩ := o
    cases of_decide_eq_true hwrites
    cases hres
    exact ⟨s, q, q', 2, _, out, runs_of_exec (fun _ _ h => of_decide_eq_true h) _ hs, hq, hph,
      hentries, hlast, ho, hempty, hend⟩

end Compaction

end Raft
