import RaftDB.RaftInvariant
import RaftDB.TransitionSystem

/-!
# One node and its directory, over any number of incarnations

A site is the directory of one node with the process that currently owns it, if any. A
crash may fall between two steps or inside one, after some of its durable writes; a panic
is a crash behind the writes that were made.
-/
namespace Raft

open Storage RaftNode TransitionSystem

variable {σ D : Type}

structure Site (σ D : Type) where
  disk : Disk D
  proc : Option (Proc σ D)

inductive SiteEvent (D : Type) where
  | boot
  | input (i : Input D)
  | crash
  | crashDuring (i : Input D) (written : ℕ)

def SiteEvent.work : SiteEvent D → Option (Input D)
  | .input i | .crashDuring i _ => some i
  | .boot | .crash => none

def Site.init : Site σ D := ⟨Disk.empty, none⟩

def recorder : StateMachine (List LogEntry) (List LogEntry) where
  init := []
  apply := fun s e => s ++ [e]
  snapshot := some
  restore := some

/-- One event, where `boot` is what a restart makes of the files and `handle` what a process does
with an input. -/
def Site.stepWith (boot : Disk D → Option (Proc σ D))
    (handle : Proc σ D → Input D → Option (StepOutcome σ D)) (s : Site σ D) :
    SiteEvent D → Option (Site σ D)
  | .boot =>
    match s.proc, boot s.disk with
    | none, some p => some ⟨s.disk, some p⟩
    | _, _ => none
  | .input i =>
    match s.proc with
    | none => none
    | some p =>
      match handle p i with
      | none => none
      | some o => some ⟨s.disk.writeAll o.writes, o.process⟩
  | .crash =>
    match s.proc with
    | none => none
    | some _ => some ⟨s.disk, none⟩
  | .crashDuring i written =>
    match s.proc with
    | none => none
    | some p =>
      match handle p i with
      | none => none
      | some o => some ⟨s.disk.writeAll (o.writes.take written), none⟩

def Site.step (M : StateMachine σ D) (cfg : Config) : Site σ D → SiteEvent D → Option (Site σ D) :=
  stepWith (fun disk => (newNode cfg disk).toOption.map (Proc.boot M)) (Proc.handle M)

def Site.stepUint64 (M : StateMachine σ D) (cfg : Config) :
    Site σ D → SiteEvent D → Option (Site σ D) :=
  stepWith (fun disk => (newNodeUint64 cfg disk).toOption.map (Proc.boot M)) (Proc.handleUint64 M)

inductive Site.Stepped (boot : Disk D → Option (Proc σ D))
    (handle : Proc σ D → Input D → Option (StepOutcome σ D)) (s : Site σ D) :
    SiteEvent D → Site σ D → Prop where
  | boot (p : Proc σ D) : s.proc = none → boot s.disk = some p →
      Stepped boot handle s .boot ⟨s.disk, some p⟩
  | input (i : Input D) (p : Proc σ D) (o : StepOutcome σ D) : s.proc = some p →
      handle p i = some o →
      Stepped boot handle s (.input i) ⟨s.disk.writeAll o.writes, o.process⟩
  | crash (p : Proc σ D) : s.proc = some p → Stepped boot handle s .crash ⟨s.disk, none⟩
  | crashDuring (i : Input D) (written : ℕ) (p : Proc σ D) (o : StepOutcome σ D) :
      s.proc = some p → handle p i = some o →
      Stepped boot handle s (.crashDuring i written)
        ⟨s.disk.writeAll (o.writes.take written), none⟩

theorem Site.stepWith_cases {boot : Disk D → Option (Proc σ D)}
    {handle : Proc σ D → Input D → Option (StepOutcome σ D)} {s t : Site σ D} {e : SiteEvent D}
    (h : s.stepWith boot handle e = some t) : s.Stepped boot handle e t := by
  cases e with
  | boot =>
    rw [stepWith] at h
    split at h
    · rename_i p hnone hp
      cases h
      exact .boot p hnone hp
    · cases h
  | input i =>
    rw [stepWith] at h
    split at h
    · cases h
    rename_i p hp
    split at h
    · cases h
    rename_i o ho
    cases h
    exact .input i p o hp ho
  | crash =>
    rw [stepWith] at h
    split at h
    · cases h
    · rename_i p hp
      cases h
      exact .crash p hp
  | crashDuring i written =>
    rw [stepWith] at h
    split at h
    · cases h
    rename_i p hp
    split at h
    · cases h
    rename_i o ho
    cases h
    exact .crashDuring i written p o hp ho

theorem StepOutcome.process_eq {o : StepOutcome σ D} {p : Proc σ D} (h : o.process = some p) :
    ∃ out, o.result = .ok (p, out) := by
  rw [process] at h
  split at h
  · cases h
  · rename_i q out hres
    cases h
    exact ⟨out, hres⟩

theorem eq_ok_of_toOption {ε α : Type} {r : Except ε α} {x : α} (h : r.toOption = some x) :
    r = .ok x := by
  cases r with
  | error err => cases h
  | ok y =>
    cases h
    rfl

theorem booted_eq {M : StateMachine σ D} {r : Except NewNodeError (RaftNode D)} {p : Proc σ D}
    (h : r.toOption.map (Proc.boot M) = some p) : ∃ rn, r = .ok rn ∧ p = Proc.boot M rn := by
  obtain ⟨rn, hrn, rfl⟩ := Option.map_eq_some_iff.mp h
  exact ⟨rn, eq_ok_of_toOption hrn, rfl⟩

/-- A request numbers its entries consecutively from the one after its predecessor. -/
def Input.Numbered : Input D → Prop
  | .appendEntries args => Consecutive args.prevLogIndex args.entries
  | _ => True

instance : (i : Input D) → Decidable i.Numbered
  | .appendEntries args => decidableConsecutive args.prevLogIndex args.entries
  | .start | .stop | .electionTimeout | .propose _ | .replicate _ | .requestVote _
  | .installSnapshot _ | .voteReply _ _ | .appendReply _ _ _ _ | .snapshotReply _ _ _ _
  | .applier => .isTrue trivial

inductive Proc.Flagged (M : StateMachine σ D) (p : Proc σ D) : Proc σ D → Output D → Prop where
  | stopped : Flagged M p { p with node := p.node.stop } .quiet
  | started : p.node.started = false → p.node.initialSnapshotData = none →
      Flagged M p { p with node := { p.node with started := true } } .quiet
  | resumed (data : D) (s : σ) : p.node.started = false →
      p.node.initialSnapshotData = some data → M.restore data = some s →
      Flagged M p { p with
        node := { p.node with started := true, initialSnapshotData := none }
        machine := s } (.restored data)

theorem Proc.Flagged.same {M : StateMachine σ D} {p p' : Proc σ D} {out : Output D}
    (h : p.Flagged M p' out) : p'.phase = p.phase ∧ ∃ started stopped initial, p'.node =
      { p.node with started := started, stopped := stopped, initialSnapshotData := initial } := by
  cases h with
  | stopped => exact ⟨rfl, _, _, _, rfl⟩
  | started => exact ⟨rfl, _, _, _, rfl⟩
  | resumed => exact ⟨rfl, _, _, _, rfl⟩

theorem Proc.start_flagged {M : StateMachine σ D} {p : Proc σ D} {o : StepOutcome σ D}
    (h : p.start M = some o) : ∃ p' out, o = ⟨[], .ok (p', out)⟩ ∧ p.Flagged M p' out := by
  rw [start] at h
  split at h
  · cases h
  rename_i hfresh
  have hfresh : p.node.started = false := by simpa using hfresh
  split at h
  · rename_i hnone
    cases h
    exact ⟨_, _, rfl, .started hfresh hnone⟩
  rename_i data hdata
  split at h
  · cases h
  · rename_i s hs
    cases h
    exact ⟨_, _, rfl, .resumed data s hfresh hdata hs⟩

def Proc.Installs (p : Proc σ D) (i : Input D) (snap : Snapshot D) : Prop :=
  ∃ args, i = .installSnapshot args ∧ p.node.Accepts args ∧ snap = args.snapshot

def Proc.Handles (I : Snapshot D → Prop) (p : Proc σ D) (o : StepOutcome σ D) : Prop :=
  ∃ rn', Moves I p.node o.writes rn' ∧ ∀ x, o.result = .ok x → x.1 = { p with node := rn' }

theorem Proc.handles_locked {ρ : Type} {I : Snapshot D → Prop} (p : Proc σ D)
    {o : Outcome D ρ} (out : ρ → Output D) (h : o.Follows I p.node) : p.Handles I (p.locked o out) := by
  obtain ⟨rn', hm, hr⟩ := h
  rw [Proc.locked]
  cases hres : o.result with
  | error e => exact ⟨rn', hm, by simp⟩
  | ok x =>
    obtain ⟨rn, r⟩ := x
    refine ⟨rn', hm, ?_⟩
    rintro _ ⟨⟩
    rw [← hr _ hres]

/-- A step is one of a handler, of `Start` or `Stop`, or of the applier. -/
def Proc.Acts (M : StateMachine σ D) (p : Proc σ D) (i : Input D) (o : StepOutcome σ D) : Prop :=
  p.Handles (p.Installs i) o ∨ (∃ p' out, o = ⟨[], .ok (p', out)⟩ ∧ p.Flagged M p' out) ∨
    (i = .applier ∧ p.applier M = some o)

theorem Proc.handle_cases {M : StateMachine σ D} {p : Proc σ D} (hw : p.node.Wf) {i : Input D}
    (hi : i.Numbered) {o : StepOutcome σ D} (h : p.handle M i = some o) : p.Acts M i o := by
  cases i with
  | start => exact Or.inr (Or.inl (start_flagged h))
  | stop =>
    cases h
    exact Or.inr (Or.inl ⟨_, _, rfl, .stopped⟩)
  | electionTimeout =>
    rw [handle] at h
    split at h
    · cases h
    · cases h
      exact Or.inl (p.handles_locked _ (startElectionIn_follows _ _))
  | propose command =>
    cases h
    exact Or.inl (p.handles_locked _ (propose_follows hw command))
  | replicate term =>
    rw [handle] at h
    split at h
    · cases h
      exact Or.inl ⟨p.node, .refl, by simp⟩
    · cases h
      refine Or.inl ⟨p.node, .refl, ?_⟩
      rintro _ ⟨⟩
      rfl
  | requestVote args =>
    cases h
    exact Or.inl (p.handles_locked _ (handleRequestVote_follows _ args))
  | appendEntries args =>
    cases h
    exact Or.inl (p.handles_locked _ (handleAppendEntries_follows hw.numbered hi))
  | installSnapshot args =>
    cases h
    refine Or.inl (p.handles_locked _ ?_)
    obtain ⟨rn', hm, hr⟩ := handleInstallSnapshot_follows hw.numbered args
    exact ⟨rn', hm.mono fun ha => ⟨args, rfl, ha.1, ha.2⟩, hr⟩
  | voteReply term reply =>
    cases h
    exact Or.inl (p.handles_locked _ (handleRequestVoteReply_follows _ term reply))
  | appendReply peer term args reply =>
    cases h
    exact Or.inl (p.handles_locked _ (handleAppendEntriesReply_follows hw peer term args reply))
  | snapshotReply peer term args reply =>
    cases h
    exact Or.inl (p.handles_locked _
      (handleInstallSnapshotReply_follows _ peer term args reply))
  | applier => exact Or.inr (Or.inr ⟨rfl, h⟩)

/-- The log has room for the entry that the input asks to append. -/
def Proc.HasRoom (p : Proc σ D) : Input D → Prop
  | .propose _ => p.node.state = .leader → p.node.log.lastLogIndex + 1 < UInt64.size
  | _ => True

instance (p : Proc σ D) : (i : Input D) → Decidable (p.HasRoom i)
  | .propose _ => inferInstanceAs (Decidable (_ → _))
  | .start | .stop | .electionTimeout | .replicate _ | .requestVote _ | .appendEntries _
  | .installSnapshot _ | .voteReply _ _ | .appendReply _ _ _ _ | .snapshotReply _ _ _ _
  | .applier => .isTrue trivial

theorem RaftNode.proposeUint64_eq {rn : RaftNode D}
    (h : rn.state = .leader → rn.log.lastLogIndex + 1 < UInt64.size) (command : List UInt8) :
    rn.proposeUint64 command = rn.propose command := by
  by_cases hlead : rn.state = .leader
  · rw [proposeUint64, propose, Nat.mod_eq_of_lt (h hlead)]
  · rw [proposeUint64, propose, proposeAt, proposeAt, if_pos hlead, if_pos hlead]

theorem Proc.handleUint64_eq {M : StateMachine σ D} {p : Proc σ D} {i : Input D}
    (hroom : p.HasRoom i) (hi : i ≠ .electionTimeout) : p.handleUint64 M i = p.handle M i := by
  cases i with
  | electionTimeout => exact absurd rfl hi
  | propose command =>
    rw [handleUint64, handle, RaftNode.proposeUint64_eq hroom]
  | _ => rfl

theorem Proc.handleUint64_cases {M : StateMachine σ D} {p : Proc σ D} (hw : p.node.Wf)
    {i : Input D} (hi : i.Numbered) (hroom : p.HasRoom i) {o : StepOutcome σ D}
    (h : p.handleUint64 M i = some o) : p.Acts M i o := by
  by_cases helection : i = .electionTimeout
  · subst helection
    rw [handleUint64] at h
    split at h
    · cases h
    · cases h
      exact Or.inl (p.handles_locked _ (startElectionIn_follows _ _))
  · rw [handleUint64_eq hroom helection] at h
    exact p.handle_cases hw hi h

def RaftNode.compacted (rn : RaftNode D) (index term : ℕ) : RaftNode D :=
  { rn with log := ⟨⟨term, index, []⟩, rn.log.entries.drop (index - rn.log.base)⟩ }

theorem RaftNode.compactLogLocked_eq {rn : RaftNode D} (hn : rn.log.Numbered) {index : ℕ}
    (hb : rn.log.base < index) (hl : index ≤ rn.log.lastLogIndex) (term : ℕ) :
    rn.compactLogLocked index term = .done (rn.compacted index term)
      [.compact (rn.log.entries.drop (index - rn.log.base))] () := by
  have hsuffix : (if index < rn.log.lastLogIndex then rn.log.entriesFrom (index + 1)
      else some []) = some (rn.log.entries.drop (index - rn.log.base)) := by
    split
    · rw [hn.entriesFrom_eq (by omega) (by omega)]
      congr 2
      omega
    · rw [hn.lastLogIndex_eq] at hl
      rename_i hlt
      rw [hn.lastLogIndex_eq] at hlt
      rw [List.drop_of_length_le (by omega)]
  rw [compactLogLocked, if_neg (by omega), hsuffix]
  rfl

inductive ApplierStep (M : StateMachine σ D) (p : Proc σ D) : StepOutcome σ D → Prop where
  | park (snap : Snapshot D) : p.node.started = true → p.phase = .waiting →
      p.node.pendingSnapshot = some snap →
      ApplierStep M p ⟨[], .ok ({ p with
        node := { p.node with pendingSnapshot := none }
        phase := .restoring snap }, .quiet)⟩
  | batch : p.node.started = true → p.phase = .waiting → p.node.pendingSnapshot = none →
      p.node.lastApplied < p.node.commitIndex →
      ApplierStep M p ⟨[], .ok ({ p with
        phase := .applying
          ((p.node.log.entries.drop (p.node.lastApplied - p.node.log.base)).take
            (p.node.commitIndex - p.node.lastApplied))
          (p.node.commitIndex - p.node.lastApplied) }, .quiet)⟩
  | restore (snap : Snapshot D) (s : σ) : p.phase = .restoring snap →
      M.restore snap.data = some s →
      ApplierStep M p ⟨[], .ok ({ p with
        machine := s
        phase := .restored snap.lastIncludedIndex }, .restored snap.data)⟩
  | credit (index : ℕ) : p.phase = .restored index →
      ApplierStep M p ⟨[], .ok ({ p with
        node := { p.node with lastApplied := index }
        phase := .waiting }, .quiet)⟩
  | apply (e : LogEntry) (rest : List LogEntry) (size : ℕ) : p.phase = .applying (e :: rest) size →
      ApplierStep M p ⟨[], .ok ({ p with
        machine := M.apply p.machine e
        phase := .applying rest size }, .applied e)⟩
  | finish (size : ℕ) (phase : Phase D) : p.phase = .applying [] size →
      (phase = .waiting ∨ ∃ t, phase = .serializing (p.node.lastApplied + size) t ∧
        p.node.log.termAt (p.node.lastApplied + size) = some t) →
      ApplierStep M p ⟨[], .ok ({ p with
        node := { p.node with lastApplied := p.node.lastApplied + size }
        phase := phase }, .quiet)⟩
  | capture (i t : ℕ) (data : D) : p.phase = .serializing i t →
      M.snapshot p.machine = some data →
      ApplierStep M p ⟨[], .ok ({ p with phase := .captured i t data }, .quiet)⟩
  | skip (i t : ℕ) (data : D) : p.phase = .captured i t data → i ≤ p.node.log.base →
      ApplierStep M p ⟨[], .ok ({ p with phase := .waiting }, .quiet)⟩
  | save (i t : ℕ) (data : D) : p.phase = .captured i t data → p.node.log.base < i →
      ApplierStep M p ⟨[.saveSnapshot ⟨i, t, data⟩,
          .compact (p.node.log.entries.drop (i - p.node.log.base))],
        .ok ({ p with node := p.node.compacted i t, phase := .waiting }, .quiet)⟩
  | panic (e : Panic) : e.refusal = false → ApplierStep M p ⟨[], .error e⟩

theorem takeBatch_eq {rn : RaftNode D} (hw : rn.Wf) (hb : rn.log.base ≤ rn.lastApplied)
    (hlt : rn.lastApplied < rn.commitIndex) :
    Proc.takeBatch rn = some ((rn.log.entries.drop (rn.lastApplied - rn.log.base)).take
      (rn.commitIndex - rn.lastApplied)) := by
  have hl := hw.commit_le
  have hlast := hw.numbered.lastLogIndex_eq
  rw [Proc.takeBatch, hw.numbered.entriesFrom_eq (by omega) (by omega)]
  have hpos : rn.lastApplied + 1 - rn.log.base - 1 = rn.lastApplied - rn.log.base := by omega
  simp only [uint64Sub_of_le hlt.le, hpos, List.length_drop]
  rw [if_pos (by omega)]

theorem Proc.applier_step {M : StateMachine σ D} {p : Proc σ D} (hw : p.node.Wf)
    (ha : ApplierOk p.node p.phase) {o : StepOutcome σ D} (h : p.applier M = some o) :
    ApplierStep M p o := by
  rw [applier] at h
  cases hph : p.phase with
  | waiting =>
    rw [hph] at h ha
    simp only [applierWake] at h
    split at h
    · cases h
    rename_i hrun
    have hstart : p.node.started = true := by
      cases hst : p.node.started with
      | true => rfl
      | false => simp [hst] at hrun
    cases hpend : p.node.pendingSnapshot with
    | some snap =>
      have hgt : snap.lastIncludedIndex > p.node.lastApplied := by
        obtain ⟨hb, hr⟩ := ha.parked hpend
        rw [hb]
        exact hr
      simp only [hpend, if_pos hgt] at h
      cases h
      exact .park snap hstart hph hpend
    | none =>
      simp only [hpend] at h
      split at h
      · cases h
      · rename_i hlt
        rw [takeBatch_eq hw (ha.caught_up hpend) (by omega)] at h
        have hlen : ((p.node.log.entries.drop (p.node.lastApplied - p.node.log.base)).take
            (p.node.commitIndex - p.node.lastApplied)).length =
            p.node.commitIndex - p.node.lastApplied := by
          have hl := hw.commit_le
          have hb : p.node.log.base ≤ p.node.lastApplied := ha.caught_up hpend
          rw [hw.numbered.lastLogIndex_eq] at hl
          rw [List.length_take, List.length_drop]
          omega
        simp only [hlen] at h
        cases h
        exact .batch hstart hph hpend (by omega)
  | restoring snap =>
    simp only [hph] at h
    split at h
    · cases h
      exact .panic _ rfl
    · rename_i s hs
      cases h
      exact .restore snap s hph hs
  | restored index =>
    simp only [hph] at h
    cases h
    exact .credit index hph
  | applying rest size =>
    cases rest with
    | cons e rest =>
      simp only [hph] at h
      cases h
      exact .apply e rest size hph
    | nil =>
      simp only [hph] at h
      cases hm : maybeSnapshot { p.node with lastApplied := p.node.lastApplied + size } with
      | error e =>
        simp only [hm] at h
        cases h
        refine .panic _ ?_
        rw [maybeSnapshot] at hm
        split at hm
        · cases hm
        split at hm
        · cases hm
        split at hm
        · cases hm
          rfl
        · cases hm
      | ok phase =>
        simp only [hm] at h
        cases h
        refine .finish size phase hph ?_
        rw [maybeSnapshot] at hm
        split at hm
        · cases hm
          exact Or.inl rfl
        split at hm
        · cases hm
          exact Or.inl rfl
        split at hm
        · cases hm
        · rename_i t ht
          cases hm
          exact Or.inr ⟨t, rfl, ht⟩
  | serializing i t =>
    simp only [hph] at h
    split at h
    · cases h
      exact .panic _ rfl
    · rename_i data hd
      cases h
      exact .capture i t data hph hd
  | captured i t data =>
    simp only [hph, saveCaptured] at h
    split at h
    · rename_i hle
      cases h
      exact .skip i t data hph hle
    · rename_i hgt
      rw [hph] at ha
      have hi := (ha.capture rfl).1
      have hle : i ≤ p.node.log.lastLogIndex :=
        ((ha.capture rfl).1.trans_le (ha.applied_le.trans ha.reach_le)).trans hw.commit_le
      rw [compactLogLocked_eq hw.numbered (not_le.mp hgt) hle] at h
      cases h
      exact .save i t data hph (not_le.mp hgt)

end Raft
