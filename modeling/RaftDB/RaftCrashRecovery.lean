import RaftDB.RaftDurability

/-!
# Crashes inside a handler

The durable writes of a handler may be cut anywhere. Every cut leaves files that recover,
with one exception: a snapshot has been saved that lies beyond the last entry of a
non-empty write-ahead log, and the log has not been compacted yet. Recovery still works on
such files, but the next append leaves a gap that the one after it refuses.
-/
namespace Raft

open Storage RaftNode TransitionSystem

variable {σ D : Type} {I : Snapshot D → Prop}

/-- The writes end with a saved snapshot beyond the end of a non-empty log file. -/
def tornBy (disk : Disk D) (writes : List (StoreWrite D)) : Bool :=
  match writes.getLast?, loadEntries (disk.writeAll writes).wal with
  | some (.saveSnapshot snap), .ok es =>
    match es.getLast? with
    | some e => e.index < snap.lastIncludedIndex
    | none => false
  | _, _ => false

/-- A cut of a move's writes is a move again, or an installed snapshot without its
compaction. -/
theorem Move.take {rn rn' : RaftNode D} {ws : List (StoreWrite D)} (hm : Move I rn ws rn') (k : ℕ) :
    (∃ rn'', Moves I rn (ws.take k) rn'') ∨
      ∃ snap, ws.take k = [.saveSnapshot snap] ∧ rn.commitIndex < snap.lastIncludedIndex := by
  cases hm with
  | append new hnew =>
    refine Or.inl ⟨(rn.appendLogLocked (new.take k)).1, .single ?_⟩
    rw [appendEntries, ← List.map_take]
    exact Move.append rn (new.take k) (hnew.take k)
  | install snap hi hlt =>
    cases k with
    | zero => exact Or.inl ⟨rn, .refl⟩
    | succ k =>
      cases k with
      | zero => exact Or.inr ⟨snap, rfl, hlt⟩
      | succ k =>
        refine Or.inl ⟨rn.installedSnapshot snap, .single ?_⟩
        rw [List.take_of_length_le (by simp)]
        exact .install rn snap hi hlt
  | adopt term hlt =>
    cases k with
    | zero => exact Or.inl ⟨rn, .refl⟩
    | succ k => exact Or.inl ⟨_, .single (by simpa using Move.adopt rn term hlt)⟩
  | vote c hv =>
    cases k with
    | zero => exact Or.inl ⟨rn, .refl⟩
    | succ k => exact Or.inl ⟨_, .single (by simpa using Move.vote rn c hv)⟩
  | stand term =>
    cases k with
    | zero => exact Or.inl ⟨rn, .refl⟩
    | succ k => exact Or.inl ⟨_, .single (by simpa using Move.stand rn term)⟩
  | cut start hb hc hl =>
    cases k with
    | zero => exact Or.inl ⟨rn, .refl⟩
    | succ k =>
      have hall : (truncateSuffix start : List (StoreWrite D)).take (k + 1) =
          truncateSuffix start := List.take_of_length_le (by simp [truncateSuffix])
      exact Or.inl ⟨_, .single (hall.symm ▸ Move.cut rn start hb hc hl)⟩
  | commit n hle hl => exact Or.inl ⟨rn, by simpa using Moves.refl⟩
  | volatile => exact Or.inl ⟨rn, by simpa using Moves.refl⟩

theorem Moves.take {rn rn' : RaftNode D} {ws : List (StoreWrite D)} (hm : Moves I rn ws rn')
    (k : ℕ) :
    (∃ rn'', Moves I rn (ws.take k) rn'') ∨
      ∃ rn'' ws₀ snap, Moves I rn ws₀ rn'' ∧ ws.take k = ws₀ ++ [.saveSnapshot snap] ∧
        rn''.commitIndex < snap.lastIncludedIndex := by
  induction hm with
  | refl => exact Or.inl ⟨rn, by simpa using Moves.refl⟩
  | @tail ws ws' a b hms hm ih =>
    rw [List.take_append]
    by_cases hk : k ≤ ws.length
    · rw [Nat.sub_eq_zero_of_le hk]
      simpa using ih
    · rw [List.take_of_length_le (by omega)]
      rcases hm.take (k - ws.length) with ⟨c, hc⟩ | ⟨snap, heq, hlt⟩
      · exact Or.inl ⟨c, hms.trans hc⟩
      · exact Or.inr ⟨a, ws, snap, hms, by rw [heq], hlt⟩

theorem Mirrors.saveSnapshot {disk : Disk D} {d : Durable} (h : Mirrors disk d)
    {snap : Snapshot D} (hb : d.log.base ≤ snap.lastIncludedIndex)
    (hsafe : ∀ es e, loadEntries disk.wal = .ok es → es.getLast? = some e →
      snap.lastIncludedIndex ≤ e.index) :
    ∃ d', Mirrors (disk.write (.saveSnapshot snap)) d' := by
  obtain ⟨covered, hload, hc⟩ := h.wal
  rcases nextIndex_leftover d.numbered hc with h0 | h1
  · have hnil : covered ++ d.log.entries = [] := by
      rw [Storage.nextIndex] at h0
      split at h0
      · rename_i hl
        exact List.getLast?_eq_none_iff.mp hl
      · omega
    rw [hnil] at hload
    exact ⟨⟨d.currentTerm, d.votedFor, ⟨boundary (some snap), []⟩, trivial⟩,
      h.hardState, rfl, Replays.of_empty hload _⟩
  · have hle : snap.lastIncludedIndex ≤ d.log.lastLogIndex := by
      rw [Storage.nextIndex] at h1
      split at h1
      · omega
      · rename_i e hl
        have := hsafe _ e hload hl
        omega
    have hadv : Replays disk.wal ⟨boundary (some snap), _⟩ := h.wal.advance d.numbered hb hle
    have hn : RaftLog.Numbered ⟨boundary (some snap),
        d.log.entries.drop (snap.lastIncludedIndex - d.log.base)⟩ := by
      rw [d.numbered.lastLogIndex_eq] at hle
      have := d.numbered.drop (k := snap.lastIncludedIndex - d.log.base) (by omega)
      rwa [Nat.add_sub_cancel' hb] at this
    exact ⟨⟨d.currentTerm, d.votedFor, _, hn⟩, h.hardState, rfl, hadv⟩

theorem writeAll_save (disk : Disk D) (ws : List (StoreWrite D)) (snap : Snapshot D) :
    disk.writeAll (ws ++ [.saveSnapshot snap]) =
      (disk.writeAll ws).write (.saveSnapshot snap) := by
  rw [writeAll_append]
  rfl

theorem not_torn_ends {disk : Disk D} {ws : List (StoreWrite D)} {snap : Snapshot D}
    (h : tornBy disk (ws ++ [.saveSnapshot snap]) = false) {es : List LogEntry} {e : LogEntry}
    (hes : loadEntries (disk.writeAll ws).wal = .ok es) (he : es.getLast? = some e) :
    snap.lastIncludedIndex ≤ e.index := by
  have hwal : (disk.writeAll (ws ++ [.saveSnapshot snap])).wal = (disk.writeAll ws).wal := by
    rw [writeAll_save]
    rfl
  rw [tornBy, hwal, hes] at h
  simpa [he] using h

theorem Live.cut {M : StateMachine σ D} {cfg : Config} {disk : Disk D} {p : Proc σ D}
    (h : Live cfg disk p) {i : Input D} {o : StepOutcome σ D} (ho : p.Acts M i o) {k : ℕ} (hsafe : tornBy disk (o.writes.take k) = false) :
    ∃ d, Mirrors (disk.writeAll (o.writes.take k)) d := by
  have hsaved : ∀ {rn : RaftNode D} {ws₀ : List (StoreWrite D)} {snap : Snapshot D}
      (hw : rn.Wf), Mirrors (disk.writeAll ws₀) (rn.durable hw) →
      rn.commitIndex < snap.lastIncludedIndex ∨ rn.log.base ≤ snap.lastIncludedIndex →
      o.writes.take k = ws₀ ++ [.saveSnapshot snap] →
      ∃ d, Mirrors (disk.writeAll (o.writes.take k)) d := by
    intro rn ws₀ snap hw hm hb heq
    rw [heq] at hsafe ⊢
    rw [writeAll_save]
    refine Mirrors.saveSnapshot hm ?_ fun es e hes he => not_torn_ends hsafe hes he
    have := hw.base_le
    rcases hb with hb | hb
    · exact this.trans hb.le
    · exact hb
  rcases ho with ⟨rn', hm, _⟩ | ⟨p', out, rfl, _⟩ | ⟨_, happ⟩
  · rcases hm.take k with ⟨rn'', hm'⟩ | ⟨rn'', ws₀, snap, hm', heq, hlt⟩
    · exact ⟨_, hm'.mirrors h.wf h.mirrors⟩
    · exact hsaved (hm'.wf h.wf) (hm'.mirrors h.wf h.mirrors) (Or.inl hlt) heq
  · exact ⟨_, by simpa [Disk.writeAll] using h.mirrors⟩
  · have hstep := p.applier_step h.wf h.applier happ
    have hfull : ∀ ws : List (StoreWrite D), o.writes = ws → ws = [] →
        ∃ d, Mirrors (disk.writeAll (o.writes.take k)) d := by
      intro ws hws hnil
      rw [hws, hnil]
      exact ⟨_, by simpa [Disk.writeAll] using h.mirrors⟩
    cases hstep with
    | save i t data hph hb =>
      obtain rfl | rfl | hk : k = 0 ∨ k = 1 ∨ 2 ≤ k := by omega
      · exact ⟨_, h.mirrors⟩
      · have hd : Mirrors (disk.writeAll []) (p.node.durable h.wf) := h.mirrors
        exact hsaved h.wf hd (Or.inr hb.le) (List.nil_append _).symm
      · rw [List.take_of_length_le (by simpa using hk)]
        exact ⟨_, ((Proc.applier_step h.wf h.applier happ).live h rfl).mirrors⟩
    | _ => exact hfull _ rfl rfl

def Site.tears (M : StateMachine σ D) (s : Site σ D) (i : Input D) (written : ℕ) : Bool :=
  match s.proc.bind (·.handle M i) with
  | none => false
  | some o => tornBy s.disk (o.writes.take written)

def CrashAnywhere (_ : Site σ D) : SiteEvent D → Prop
  | .input i | .crashDuring i _ => i.Numbered
  | _ => True

instance (s : Site σ D) : (e : SiteEvent D) → Decidable (CrashAnywhere s e)
  | .input i | .crashDuring i _ => inferInstanceAs (Decidable i.Numbered)
  | .boot | .crash => .isTrue trivial

/-- No crash tears a saved snapshot off a log file that ends below it. -/
def NeverTorn (M : StateMachine σ D) (s : Site σ D) (e : SiteEvent D) : Prop :=
  CrashAnywhere s e ∧ ∀ i written, e = .crashDuring i written → s.tears M i written = false

theorem Site.sound_of_never_torn {M : StateMachine σ D} {cfg : Config} {s : Site σ D}
    (h : Runs (Site.step M cfg) (NeverTorn M) Site.init s) : s.Sound cfg := by
  refine h.invariant (Site.init_sound cfg) fun u e v hu he hst => ?_
  cases Site.stepWith_cases hst with
  | boot p hnone hboot =>
    obtain ⟨rn, hrn, rfl⟩ := booted_eq hboot
    exact hu.booted hrn M
  | input i p o hp ho => exact hu.acts hp (p.handle_cases (hu.live hp).1.wf he.1 ho)
  | crash p hp => exact hu.down
  | crashDuring i written p o hp ho =>
    have hsafe := he.2 i written rfl
    rw [Site.tears, hp, Option.bind_some, ho] at hsafe
    have hlive := (hu.live hp).1
    exact ⟨hlive.cut (p.handle_cases hlive.wf he.1 ho) hsafe, by rintro _ ⟨⟩⟩

/-- While no crash tears an install, the files can always be loaded and the node comes
back. -/
theorem restart_succeeds (M : StateMachine σ D) (cfg : Config)
    (hcfg : checkConfig cfg.withDefaults = none) {s : Site σ D}
    (hrun : Runs (Site.step M cfg) (NeverTorn M) Site.init s) :
    (∃ es, loadEntries s.disk.wal = .ok es) ∧ ∃ rn, newNode cfg s.disk = .ok rn := by
  obtain ⟨d, hd⟩ := (Site.sound_of_never_torn hrun).durable
  obtain ⟨covered, hload, _⟩ := hd.wal
  exact ⟨⟨_, hload⟩, _, hd.newNode_eq hcfg⟩

def tornInsideLog : List (SiteEvent (List LogEntry)) :=
  [.boot, .input .start,
    .input (.appendEntries ⟨1, "n2", 0, 0, [⟨1, 1, [1]⟩, ⟨1, 2, [2]⟩, ⟨1, 3, [3]⟩], 0⟩),
    .crashDuring (.installSnapshot ⟨1, "n2", 2, 1, 0, [⟨1, 1, [1]⟩, ⟨1, 2, [2]⟩], true⟩) 1,
    .boot, .input .start, .input (.appendEntries ⟨1, "n2", 3, 1, [⟨1, 4, [4]⟩], 2⟩), .crash]

theorem restart_succeeds_inside_log :
    ∃ s, exec (Site.step recorder ⟨"n1", ["n2", "n3"], 2, 0, 0, 0, 0⟩)
        (fun s e => decide (CrashAnywhere s e) && match e with
          | .crashDuring i written => !s.tears recorder i written
          | _ => true) Site.init tornInsideLog = some s ∧
      (∃ es, loadEntries s.disk.wal = .ok es) ∧
      ∃ rn, newNode ⟨"n1", ["n2", "n3"], 2, 0, 0, 0, 0⟩ s.disk = .ok rn := by
  obtain ⟨s, hs⟩ := Option.isSome_iff_exists.mp (show (exec (Site.step recorder
      ⟨"n1", ["n2", "n3"], 2, 0, 0, 0, 0⟩)
      (fun s e => decide (CrashAnywhere s e) && match e with
          | .crashDuring i written => !s.tears recorder i written
          | _ => true) Site.init tornInsideLog).isSome = true by decide +kernel)
  refine ⟨s, hs, restart_succeeds recorder _ (by decide) (runs_of_exec ?_ tornInsideLog hs)⟩
  intro u e he
  obtain ⟨hany, hsafe⟩ := Bool.and_eq_true_iff.mp he
  refine ⟨of_decide_eq_true hany, ?_⟩
  rintro i written rfl
  simpa using hsafe

theorem newNode_loadError {cfg : Config} {disk : Disk D} {err : LoadError}
    (hcfg : checkConfig cfg.withDefaults = none) (h : loadEntries disk.wal = .error err) :
    newNode cfg disk = .error (.loadingLog err) := by
  simp [newNode, newNodeFrom, hcfg, h]

/-- A follower with two entries installs a snapshot at index 5 and crashes before the
compaction; after the restart it appends entry 6 behind the leftovers. -/
def tornBeyondLog : List (SiteEvent (List LogEntry)) :=
  [.boot, .input .start,
    .input (.appendEntries ⟨1, "n2", 0, 0, [⟨1, 1, [1]⟩, ⟨1, 2, [2]⟩], 0⟩),
    .crashDuring (.installSnapshot ⟨1, "n2", 5, 1, 0,
      [⟨1, 1, [1]⟩, ⟨1, 2, [2]⟩, ⟨1, 3, [3]⟩, ⟨1, 4, [4]⟩, ⟨1, 5, [5]⟩], true⟩) 1,
    .boot, .input .start, .input (.appendEntries ⟨1, "n2", 5, 1, [⟨1, 6, [6]⟩], 5⟩), .crash]

/-- The log file then holds entries 1, 2 and 6, and neither it nor the node can be loaded. -/
theorem restart_fails_beyond_log :
    ∃ s, Runs (Site.step recorder ⟨"n1", ["n2", "n3"], 2, 0, 0, 0, 0⟩) CrashAnywhere
        Site.init s ∧
      loadEntries s.disk.wal = .error (.outOfOrder 6 3) ∧
      newNode ⟨"n1", ["n2", "n3"], 2, 0, 0, 0, 0⟩ s.disk =
        .error (.loadingLog (.outOfOrder 6 3)) := by
  have hload : (exec (Site.step recorder ⟨"n1", ["n2", "n3"], 2, 0, 0, 0, 0⟩)
      (fun s e => decide (CrashAnywhere s e)) Site.init tornBeyondLog).map
      (fun s => s.disk.wal) =
      some [.append ⟨1, 1, [1]⟩, .append ⟨1, 2, [2]⟩, .append ⟨1, 6, [6]⟩] := by
    decide +kernel
  obtain ⟨s, hs, hwal⟩ := Option.map_eq_some_iff.mp hload
  have herr : loadEntries s.disk.wal = .error (.outOfOrder 6 3) := by
    rw [hwal]
    rfl
  exact ⟨s, runs_of_exec (fun _ _ h => of_decide_eq_true h) tornBeyondLog hs, herr,
    newNode_loadError (by decide) herr⟩

section InstallCrash

variable {rn : RaftNode D} {args : InstallSnapshotArgs D}

theorem accepted_outcome (ha : rn.Accepts args) (hn : rn.log.Numbered) :
    rn.handleInstallSnapshot args =
      .done ((rn.followerOf args.term args.leaderID).installedSnapshot args.snapshot)
        (rn.adoptWrites args.term ++ [.saveSnapshot args.snapshot,
          .compact (rn.suffixBeyond args.lastIncludedIndex args.lastIncludedTerm)])
        { term := (rn.followerOf args.term args.leaderID).currentTerm } := by
  rw [handleInstallSnapshot_eq, if_neg, acceptSnapshot_eq (by simpa using hn), if_neg]
  · simp [Outcome.after, Outcome.done, suffixBeyond]
  · simpa using ha.beyond
  · simp [ha.running, ha.term]

/-- The files when the snapshot is saved and the compaction has not taken effect. -/
def beforeCompact (disk : Disk D) (rn : RaftNode D) (args : InstallSnapshotArgs D) : Disk D :=
  disk.writeAll (rn.handleInstallSnapshot args).writes.dropLast

theorem beforeCompact_files (ha : rn.Accepts args) (hn : rn.log.Numbered) (disk : Disk D) :
    (beforeCompact disk rn args).wal = disk.wal ∧
      (beforeCompact disk rn args).snapshot = some args.snapshot := by
  have hdrop : (rn.handleInstallSnapshot args).writes.dropLast =
      rn.adoptWrites args.term ++ [.saveSnapshot args.snapshot] := by
    rw [accepted_outcome ha hn]
    simp [Outcome.done]
  rw [beforeCompact, hdrop, adoptWrites]
  split <;> exact ⟨rfl, rfl⟩

theorem recoverEntries_beyond {wal : List WalRecord} {log : RaftLog} (h : Replays wal log)
    (hn : log.Numbered) {index : ℕ} (hb : log.base ≤ index) :
    ∃ es, loadEntries wal = .ok es ∧
      recoverEntries index (index + 1) es = .ok (log.entries.drop (index - log.base)) := by
  obtain ⟨covered, hload, hc⟩ := h
  refine ⟨_, hload, ?_⟩
  rw [recoverEntries_covered fun e he => (hc.le_base e he).trans hb]
  nth_rewrite 1 [← List.take_append_drop (index - log.base) log.entries]
  rw [recoverEntries_covered]
  · by_cases hl : index - log.base ≤ log.entries.length
    · have := hn.drop (k := index - log.base) hl
      rw [Nat.add_sub_cancel' hb] at this
      exact recoverEntries_consecutive le_rfl this
    · rw [List.drop_of_length_le (by omega)]
      rfl
  · intro e he
    have := (hn.take (index - log.base)).index_bounds he
    rw [List.length_take] at this
    omega

/-- The handler keeps the suffix by the boundary's term; the two decisions agree exactly
when there is no suffix or the terms match. -/
theorem drop_eq_suffixBeyond_iff (hn : rn.log.Numbered) {index term : ℕ}
    (hb : rn.log.base ≤ index) :
    rn.log.entries.drop (index - rn.log.base) = rn.suffixBeyond index term ↔
      rn.log.lastLogIndex ≤ index ∨ rn.log.termAt index = some term := by
  have hlast := hn.lastLogIndex_eq
  rw [suffixBeyond]
  by_cases hl : rn.log.lastLogIndex ≤ index
  · rw [List.drop_of_length_le (by omega)]
    simp [hl]
  · by_cases ht : rn.log.termAt index = some term
    · rw [if_pos ⟨hb, by omega, ht⟩]
      simp [ht]
    · rw [if_neg (fun h => ht h.2.2), List.drop_eq_nil_iff]
      simp only [hl, ht, or_self, iff_false]
      omega

/-- After a crash between the two writes, the node comes back with the boundary of the
completed install, and with its entries exactly when the log did not extend beyond the
snapshot or matched its term. -/
theorem install_crash_recovers_iff {cfg : Config} (hcfg : checkConfig cfg.withDefaults = none)
    {disk : Disk D} (hw : rn.Wf) (hd : Mirrors disk (rn.durable hw)) (ha : rn.Accepts args) :
    ∃ completed reply back, (rn.handleInstallSnapshot args).result = .ok (completed, reply) ∧
      newNode cfg (beforeCompact disk rn args) = .ok back ∧
      back.log.sentinel = completed.log.sentinel ∧
      (back.log.entries = completed.log.entries ↔
        rn.log.lastLogIndex ≤ args.lastIncludedIndex ∨
          rn.log.termAt args.lastIncludedIndex = some args.lastIncludedTerm) := by
  obtain ⟨hwal, hsnap⟩ := beforeCompact_files ha hw.numbered disk
  have hb : rn.log.base ≤ args.lastIncludedIndex := hw.base_le.trans ha.beyond.le
  obtain ⟨es, hload, hrec⟩ := recoverEntries_beyond hd.wal hw.numbered hb
  have hload' : loadEntries (beforeCompact disk rn args).wal = .ok es := by
    rw [hwal]
    exact hload
  have hrec' : recoverEntries (boundary (beforeCompact disk rn args).snapshot).index
      ((boundary (beforeCompact disk rn args).snapshot).index + 1) es =
      .ok (rn.log.entries.drop (args.lastIncludedIndex - rn.log.base)) := by
    rw [hsnap]
    exact hrec
  obtain ⟨back, hback, hlog⟩ := newNode_log hcfg hload' hrec'
  refine ⟨_, _, back, by rw [accepted_outcome ha hw.numbered]; rfl, hback, ?_, ?_⟩
  · rw [hlog, hsnap]
    rfl
  · rw [hlog, ← drop_eq_suffixBeyond_iff hw.numbered hb]
    change _ = suffixBeyond (rn.followerOf args.term args.leaderID) _ _ ↔ _
    simp only [suffixBeyond, followerOf_log]
    rfl

end InstallCrash

def threeOfTermOne : Durable :=
  ⟨1, None, ⟨⟨0, 0, []⟩, [⟨1, 1, [1]⟩, ⟨1, 2, [2]⟩, ⟨1, 3, [3]⟩]⟩, by decide⟩

def filesOfTermOne : Disk (List LogEntry) :=
  ⟨some ⟨1, None⟩, [.append ⟨1, 1, [1]⟩, .append ⟨1, 2, [2]⟩, .append ⟨1, 3, [3]⟩], none⟩

def followerOfTermOne : RaftNode (List LogEntry) :=
  recovered ⟨"n1", ["n2", "n3"], 2, 0, 0, 0, 0⟩ filesOfTermOne threeOfTermOne

theorem followerOfTermOne_wf : followerOfTermOne.Wf :=
  ⟨threeOfTermOne.numbered, by decide, by decide⟩

theorem filesOfTermOne_mirror :
    Mirrors filesOfTermOne (followerOfTermOne.durable followerOfTermOne_wf) :=
  ⟨rfl, rfl, [], rfl, leftover_nil _⟩

def conflictingSnapshot : InstallSnapshotArgs (List LogEntry) :=
  ⟨2, "n2", 2, 2, 0, [⟨1, 1, [1]⟩, ⟨2, 2, [9]⟩], true⟩

theorem install_crash_recovers_iff_conflicting :
    ∃ completed reply back,
      (followerOfTermOne.handleInstallSnapshot conflictingSnapshot).result =
        .ok (completed, reply) ∧
      newNode ⟨"n1", ["n2", "n3"], 2, 0, 0, 0, 0⟩
        (beforeCompact filesOfTermOne followerOfTermOne conflictingSnapshot) = .ok back ∧
      back.log.sentinel = completed.log.sentinel ∧
      (back.log.entries = completed.log.entries ↔
        followerOfTermOne.log.lastLogIndex ≤ conflictingSnapshot.lastIncludedIndex ∨
          followerOfTermOne.log.termAt conflictingSnapshot.lastIncludedIndex =
            some conflictingSnapshot.lastIncludedTerm) :=
  install_crash_recovers_iff (by decide) followerOfTermOne_wf filesOfTermOne_mirror
    ⟨rfl, by decide, by decide⟩

/-- The completed install discards the conflicting suffix, the recovery keeps it. -/
theorem install_crash_keeps_conflicting_suffix :
    Mirrors filesOfTermOne (followerOfTermOne.durable followerOfTermOne_wf) ∧
    followerOfTermOne.Accepts conflictingSnapshot ∧
    ∃ completed reply back,
      (followerOfTermOne.handleInstallSnapshot conflictingSnapshot).result =
        .ok (completed, reply) ∧
      newNode ⟨"n1", ["n2", "n3"], 2, 0, 0, 0, 0⟩
        (beforeCompact filesOfTermOne followerOfTermOne conflictingSnapshot) = .ok back ∧
      completed.log.entries = [] ∧ back.log.entries = [⟨1, 3, [3]⟩] :=
  ⟨filesOfTermOne_mirror, ⟨rfl, by decide, by decide⟩, _, _, _, rfl, rfl, rfl, rfl⟩

end Raft
