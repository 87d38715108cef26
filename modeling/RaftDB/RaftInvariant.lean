import RaftDB.RaftMoves

/-!
# The invariant of one node

For each move: the log stays numbered and contains what is committed, the files mirror the
node, and the applier's phase fits the log. The last part holds however handlers interleave
with the applier: a parked snapshot lies beyond everything the applier may still credit.
-/
namespace Raft

open Storage RaftNode

variable {σ D : Type} {I : Snapshot D → Prop}

theorem append_lastLogIndex {log : RaftLog} (hn : log.Numbered) {new : List LogEntry}
    (hc : Consecutive log.lastLogIndex new) :
    RaftLog.lastLogIndex ⟨log.sentinel, log.entries ++ new⟩ = log.lastLogIndex + new.length := by
  rw [(hn.append hc).lastLogIndex_eq, hn.lastLogIndex_eq]
  change log.base + (log.entries ++ new).length = _
  rw [List.length_append]
  omega

theorem cut_lastLogIndex {log : RaftLog} (hn : log.Numbered) {start : ℕ} (hb : log.base < start)
    (hl : start ≤ log.lastLogIndex) :
    RaftLog.lastLogIndex ⟨log.sentinel, log.entries.take (start - log.base - 1)⟩ = start - 1 := by
  have hcut : RaftLog.Numbered ⟨log.sentinel, log.entries.take (start - log.base - 1)⟩ :=
    hn.take _
  rw [hn.lastLogIndex_eq] at hl
  rw [hcut.lastLogIndex_eq]
  change log.base + (log.entries.take _).length = _
  rw [List.length_take]
  omega

theorem Move.wf {rn rn' : RaftNode D} {ws : List (StoreWrite D)} (hm : Move I rn ws rn')
    (h : rn.Wf) : rn'.Wf := by
  obtain ⟨hn, hb, hc⟩ := h
  cases hm with
  | adopt term _ => exact ⟨by simpa using hn, by simpa using hb, by simpa using hc⟩
  | vote c _ => exact ⟨hn, hb, hc⟩
  | stand => exact ⟨hn, hb, hc⟩
  | append new hnew =>
    refine ⟨hn.append hnew, hb, hc.trans ?_⟩
    change _ ≤ RaftLog.lastLogIndex ⟨rn.log.sentinel, rn.log.entries ++ new⟩
    rw [append_lastLogIndex hn hnew]
    omega
  | cut start hs hcm hl =>
    refine ⟨hn.take _, hb, ?_⟩
    change rn.commitIndex ≤ RaftLog.lastLogIndex ⟨rn.log.sentinel, _⟩
    rw [cut_lastLogIndex hn hs hl]
    omega
  | commit n hle hl => exact ⟨hn, hb.trans hle, hl⟩
  | install snap _ hlt =>
    have hsuf : RaftLog.Numbered (rn.installedSnapshot snap).log :=
      suffixBeyond_consecutive hn snap.lastIncludedIndex snap.lastIncludedTerm
    exact ⟨hsuf, le_rfl, hsuf.base_le_last⟩
  | volatile => exact ⟨hn, hb, hc⟩

theorem Moves.wf {rn rn' : RaftNode D} {ws : List (StoreWrite D)} (hm : Moves I rn ws rn')
    (h : rn.Wf) : rn'.Wf :=
  hm.invariant (fun hs => hs.wf) h

def RaftNode.durable (rn : RaftNode D) (h : rn.Wf) : Durable :=
  ⟨rn.currentTerm, rn.votedFor, rn.log, h.numbered⟩

theorem writeAll_append (disk : Disk D) (ws ws' : List (StoreWrite D)) :
    disk.writeAll (ws ++ ws') = (disk.writeAll ws).writeAll ws' :=
  List.foldl_append

theorem writeAll_appendEntries (disk : Disk D) (new : List LogEntry) :
    disk.writeAll (appendEntries new) = { disk with wal := disk.wal ++ new.map .append } := by
  induction new generalizing disk with
  | nil => simp [appendEntries, Disk.writeAll]
  | cons e es ih =>
    have : disk.writeAll (appendEntries (e :: es)) =
        (disk.write (.writeRecord (.append e))).writeAll (appendEntries es) := rfl
    rw [this, ih]
    simp [Disk.write]

theorem Move.mirrors {rn rn' : RaftNode D} {ws : List (StoreWrite D)} (hm : Move I rn ws rn')
    (h : rn.Wf) {disk : Disk D} (hd : Mirrors disk (rn.durable h)) :
    Mirrors (disk.writeAll ws) (rn'.durable (hm.wf h)) := by
  obtain ⟨hhs, hsen, hwal⟩ := hd
  cases hm with
  | adopt term hlt =>
    refine ⟨?_, ?_, ?_⟩
    · simp [Disk.writeAll, Disk.write, durable, inTerm, hlt]
    · simpa [Disk.writeAll, Disk.write, durable] using hsen
    · simpa [Disk.writeAll, Disk.write, durable] using hwal
  | vote c _ => exact ⟨rfl, hsen, hwal⟩
  | stand => exact ⟨rfl, hsen, hwal⟩
  | append new hnew =>
    rw [writeAll_appendEntries]
    exact ⟨hhs, hsen, hwal.append h.numbered hnew⟩
  | cut start hs _ _ => exact ⟨hhs, hsen, hwal.truncate h.numbered hs⟩
  | commit n _ _ => exact ⟨hhs, hsen, hwal⟩
  | install snap _ _ =>
    have hsuf : RaftLog.Numbered (rn.installedSnapshot snap).log :=
      suffixBeyond_consecutive h.numbered snap.lastIncludedIndex snap.lastIncludedTerm
    exact ⟨hhs, rfl, Replays.compact hsuf⟩
  | volatile => exact ⟨hhs, hsen, hwal⟩

theorem Moves.mirrors {rn rn' : RaftNode D} {ws : List (StoreWrite D)} (hm : Moves I rn ws rn')
    (h : rn.Wf) {disk : Disk D} (hd : Mirrors disk (rn.durable h)) :
    Mirrors (disk.writeAll ws) (rn'.durable (hm.wf h)) := by
  induction hm with
  | refl => exact hd
  | tail hms hm ih =>
    rw [writeAll_append]
    exact hm.mirrors (hms.wf h) ih

/-- The index that the applier will have reached when its phase is over. -/
def Phase.reach (rn : RaftNode D) : Phase D → ℕ
  | .waiting => rn.lastApplied
  | .restoring snap => snap.lastIncludedIndex
  | .restored index => index
  | .applying _ size => rn.lastApplied + size
  | .serializing snapIndex _ => snapIndex
  | .captured snapIndex _ _ => snapIndex

def Phase.capture : Phase D → Option (ℕ × ℕ)
  | .serializing snapIndex snapTerm => some (snapIndex, snapTerm)
  | .captured snapIndex snapTerm _ => some (snapIndex, snapTerm)
  | _ => none

structure ApplierOk (rn : RaftNode D) (phase : Phase D) : Prop where
  applied_le : rn.lastApplied ≤ phase.reach rn
  reach_le : phase.reach rn ≤ rn.commitIndex
  caught_up : rn.pendingSnapshot = none → rn.log.base ≤ phase.reach rn
  parked : ∀ {snap}, rn.pendingSnapshot = some snap →
    snap.lastIncludedIndex = rn.log.base ∧ phase.reach rn < rn.log.base
  capture : ∀ {i t}, phase.capture = some (i, t) →
    i = rn.lastApplied ∧ (rn.log.base ≤ i → rn.log.termAt i = some t)

theorem ApplierOk.of_same {rn rn' : RaftNode D} {phase : Phase D} (h : ApplierOk rn phase)
    (happ : rn'.lastApplied = rn.lastApplied) (hpend : rn'.pendingSnapshot = rn.pendingSnapshot)
    (hcm : rn.commitIndex ≤ rn'.commitIndex) (hbase : rn'.log.base = rn.log.base)
    (hterm : ∀ i, rn.log.base ≤ i → i ≤ rn.commitIndex → rn'.log.termAt i = rn.log.termAt i) :
    ApplierOk rn' phase := by
  have hreach : phase.reach rn' = phase.reach rn := by
    cases phase <;> simp only [Phase.reach, happ]
  refine ⟨by rw [happ, hreach]; exact h.applied_le, by rw [hreach]; exact h.reach_le.trans hcm,
    ?_, ?_, ?_⟩
  · rw [hpend, hbase, hreach]
    exact h.caught_up
  · rw [hpend, hbase, hreach]
    exact h.parked
  · intro i t hc
    obtain ⟨hi, ht⟩ := h.capture hc
    rw [happ, hbase]
    refine ⟨hi, fun hb => ?_⟩
    rw [hterm i hb]
    · exact ht hb
    · rw [hi]
      exact h.applied_le.trans h.reach_le

theorem termAt_append {log : RaftLog} (hn : log.Numbered) (new : List LogEntry) {i : ℕ}
    (hb : log.base ≤ i) (hl : i ≤ log.lastLogIndex) :
    RaftLog.termAt ⟨log.sentinel, log.entries ++ new⟩ i = log.termAt i := by
  have hbase : RaftLog.base ⟨log.sentinel, log.entries ++ new⟩ = log.base := rfl
  rcases Nat.lt_or_eq_of_le hb with hlt | rfl
  · rw [hn.lastLogIndex_eq] at hl
    rw [RaftLog.termAt_above ⟨log.sentinel, log.entries ++ new⟩ hlt,
      log.termAt_above hlt, hbase, List.getElem?_append_left (by omega)]
  · exact (RaftLog.termAt_base _).trans log.termAt_base.symm

theorem termAt_cut {log : RaftLog} {start i : ℕ} (hb : log.base ≤ i) (hi : i < start) :
    RaftLog.termAt ⟨log.sentinel, log.entries.take (start - log.base - 1)⟩ i = log.termAt i := by
  have hbase : RaftLog.base ⟨log.sentinel, log.entries.take (start - log.base - 1)⟩ = log.base :=
    rfl
  rcases Nat.lt_or_eq_of_le hb with hlt | rfl
  · rw [RaftLog.termAt_above ⟨log.sentinel, log.entries.take _⟩ hlt,
      log.termAt_above hlt, hbase, List.getElem?_take_of_lt (by omega)]
  · exact (RaftLog.termAt_base _).trans log.termAt_base.symm

theorem Move.applierOk {rn rn' : RaftNode D} {ws : List (StoreWrite D)} {phase : Phase D}
    (hm : Move I rn ws rn') (hw : rn.Wf) (h : ApplierOk rn phase) : ApplierOk rn' phase := by
  cases hm with
  | adopt term hlt =>
    refine h.of_same ?_ ?_ (by simp) (by simp) (by simp) <;> rw [inTerm, if_pos hlt]
  | vote c _ => exact h.of_same rfl rfl le_rfl rfl fun _ _ _ => rfl
  | stand => exact h.of_same rfl rfl le_rfl rfl fun _ _ _ => rfl
  | append new hnew =>
    exact h.of_same rfl rfl le_rfl rfl fun i hb hi =>
      termAt_append hw.numbered new hb (hi.trans hw.commit_le)
  | cut start _ hcm _ =>
    exact h.of_same rfl rfl le_rfl rfl fun i hb hi => termAt_cut hb (hi.trans_lt hcm)
  | commit n hle _ => exact h.of_same rfl rfl hle rfl fun _ _ _ => rfl
  | install snap _ hlt =>
    have hreach : phase.reach (rn.installedSnapshot snap) = phase.reach rn := by
      cases phase <;> rfl
    have hbeyond : phase.reach rn < snap.lastIncludedIndex := h.reach_le.trans_lt hlt
    refine ⟨by rw [hreach]; exact h.applied_le, by rw [hreach]; exact hbeyond.le, ?_, ?_, ?_⟩
    · intro hp
      cases hp
    · intro s hs
      cases hs
      rw [hreach]
      exact ⟨rfl, hbeyond⟩
    · intro i t hc
      refine ⟨(h.capture hc).1, fun hb => ?_⟩
      have hi : i ≤ rn.commitIndex := by
        rw [(h.capture hc).1]
        exact h.applied_le.trans h.reach_le
      exact absurd (hi.trans_lt hlt) (not_lt.mpr hb)
  | volatile => exact h.of_same rfl rfl le_rfl rfl fun _ _ _ => rfl

theorem Moves.applierOk {rn rn' : RaftNode D} {ws : List (StoreWrite D)} {phase : Phase D}
    (hm : Moves I rn ws rn') (hw : rn.Wf) (h : ApplierOk rn phase) : ApplierOk rn' phase := by
  induction hm with
  | refl => exact h
  | tail hms hm ih => exact hm.applierOk (hms.wf hw) ih

theorem Move.settings {rn rn' : RaftNode D} {ws : List (StoreWrite D)} (hm : Move I rn ws rn') :
    rn'.cfg = rn.cfg ∧ rn'.started = rn.started ∧ rn'.stopped = rn.stopped ∧
      rn'.initialSnapshotData = rn.initialSnapshotData ∧ rn'.lastApplied = rn.lastApplied := by
  cases hm with
  | adopt term hlt =>
    rw [inTerm, if_pos hlt]
    exact ⟨rfl, rfl, rfl, rfl, rfl⟩
  | _ => exact ⟨rfl, rfl, rfl, rfl, rfl⟩

theorem Moves.settings {rn rn' : RaftNode D} {ws : List (StoreWrite D)} (hm : Moves I rn ws rn') :
    rn'.cfg = rn.cfg ∧ rn'.started = rn.started ∧ rn'.stopped = rn.stopped ∧
      rn'.initialSnapshotData = rn.initialSnapshotData ∧ rn'.lastApplied = rn.lastApplied := by
  induction hm with
  | refl => exact ⟨rfl, rfl, rfl, rfl, rfl⟩
  | tail _ hm ih =>
    obtain ⟨h1, h2, h3, h4, h5⟩ := hm.settings
    obtain ⟨i1, i2, i3, i4, i5⟩ := ih
    exact ⟨h1.trans i1, h2.trans i2, h3.trans i3, h4.trans i4, h5.trans i5⟩

theorem Move.commit_le {rn rn' : RaftNode D} {ws : List (StoreWrite D)} (hm : Move I rn ws rn') :
    rn.commitIndex ≤ rn'.commitIndex := by
  cases hm with
  | adopt term _ => rw [inTerm_commitIndex]
  | commit n hle _ => exact hle
  | install snap _ hlt => exact hlt.le
  | _ => exact le_rfl

theorem Moves.commit_le {rn rn' : RaftNode D} {ws : List (StoreWrite D)}
    (hm : Moves I rn ws rn') : rn.commitIndex ≤ rn'.commitIndex := by
  induction hm with
  | refl => exact le_rfl
  | tail _ hm ih => exact ih.trans hm.commit_le

theorem Move.snapshots {rn rn' : RaftNode D} {ws : List (StoreWrite D)} (hm : Move I rn ws rn')
    (disk : Disk D) :
    (rn'.pendingSnapshot = rn.pendingSnapshot ∧ (disk.writeAll ws).snapshot = disk.snapshot) ∨
    ∃ snap, I snap ∧ rn'.pendingSnapshot = some snap ∧
      (disk.writeAll ws).snapshot = some snap := by
  cases hm with
  | adopt term hlt =>
    rw [inTerm, if_pos hlt]
    exact Or.inl ⟨rfl, rfl⟩
  | append new _ => exact Or.inl ⟨rfl, by rw [writeAll_appendEntries]⟩
  | install snap hi _ => exact Or.inr ⟨snap, hi, rfl, rfl⟩
  | _ => exact Or.inl ⟨rfl, rfl⟩

theorem Moves.snapshots {rn rn' : RaftNode D} {ws : List (StoreWrite D)}
    (hm : Moves I rn ws rn') (disk : Disk D) :
    (rn'.pendingSnapshot = rn.pendingSnapshot ∧ (disk.writeAll ws).snapshot = disk.snapshot) ∨
    ∃ snap, I snap ∧ rn'.pendingSnapshot = some snap ∧
      (disk.writeAll ws).snapshot = some snap := by
  induction hm with
  | refl => exact Or.inl ⟨rfl, rfl⟩
  | tail _ hm ih =>
    rw [writeAll_append]
    rcases hm.snapshots (disk.writeAll _) with ⟨hp, hd⟩ | hnew
    · rw [hp, hd]
      exact ih
    · exact Or.inr hnew

end Raft
