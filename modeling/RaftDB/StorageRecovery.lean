import RaftDB.RaftNode
import RaftDB.RaftLogFacts

/-!
# What the stores recover

A write-ahead log replays to a node's log if it loads to the node's entries behind a run of
leftovers that the snapshot covers and that ends at the boundary. Appends, conflict
truncations and compactions keep this, and a node recovers exactly what is mirrored.
-/
namespace Storage

open Raft

/-- The leftovers are covered by the boundary, and the last one sits on it. -/
structure Leftover (base : ℕ) (covered : List LogEntry) : Prop where
  le_base : ∀ e ∈ covered, e.index ≤ base
  ends : ∀ e, covered.getLast? = some e → e.index = base

def Replays (wal : List WalRecord) (log : RaftLog) : Prop :=
  ∃ covered, loadEntries wal = .ok (covered ++ log.entries) ∧ Leftover log.base covered

theorem leftover_nil (base : ℕ) : Leftover base [] := ⟨by simp, by simp⟩

theorem replay_append {es es' : List LogEntry} {rs : List WalRecord}
    (h : replay es rs = .ok es') (rs' : List WalRecord) :
    replay es (rs ++ rs') = replay es' rs' := by
  induction rs generalizing es with
  | nil =>
    simp only [replay, Except.ok.injEq] at h
    rw [h, List.nil_append]
  | cons r rs ih =>
    simp only [replay, List.cons_append] at h ⊢
    cases hr : replayRecord es r with
    | error e => simp [hr] at h
    | ok x =>
      simp only [hr] at h ⊢
      exact ih h

theorem mem_replayRecord {e : LogEntry} {es es' : List LogEntry} {r : WalRecord}
    (h : replayRecord es r = .ok es') (he : e ∈ es') : e ∈ es ∨ r = .append e := by
  cases r with
  | append x =>
    rw [replayRecord] at h
    split at h
    · cases h
    · cases h
      rcases List.mem_append.mp he with he | he
      · exact Or.inl he
      · rw [List.mem_singleton.mp he]
        exact Or.inr rfl
  | truncate start =>
    rw [replayRecord] at h
    split at h
    · cases h
    · cases h
      exact Or.inl ((List.rdropWhile_prefix _ es).subset he)
  | unknown type => cases h

theorem mem_replay {e : LogEntry} {es es' : List LogEntry} {rs : List WalRecord}
    (h : replay es rs = .ok es') (he : e ∈ es') : e ∈ es ∨ .append e ∈ rs := by
  induction rs generalizing es with
  | nil =>
    cases h
    exact Or.inl he
  | cons r rs ih =>
    rw [replay] at h
    split at h
    · cases h
    · rename_i mid hmid
      rcases ih h with hm | hm
      · rcases mem_replayRecord hmid hm with hm | rfl
        · exact Or.inl hm
        · exact Or.inr List.mem_cons_self
      · exact Or.inr (List.mem_cons_of_mem r hm)

theorem nextIndex_leftover {log : RaftLog} {covered : List LogEntry} (hn : log.Numbered)
    (hc : Leftover log.base covered) :
    nextIndex (covered ++ log.entries) = 0 ∨
      nextIndex (covered ++ log.entries) = log.lastLogIndex + 1 := by
  rw [nextIndex, List.getLast?_append]
  cases hl : log.entries.getLast? with
  | some e =>
    right
    rw [hn.lastLogIndex_eq, ← hn.last_index hl]
    rfl
  | none =>
    rw [List.getLast?_eq_none_iff] at hl
    cases hcv : covered.getLast? with
    | none => exact Or.inl rfl
    | some e =>
      right
      rw [hn.lastLogIndex_eq, hl, ← hc.ends e hcv]
      rfl

theorem Replays.append_one {wal : List WalRecord} {log : RaftLog} (h : Replays wal log)
    (hn : log.Numbered) {e : LogEntry} (he : e.index = log.lastLogIndex + 1) :
    Replays (wal ++ [.append e]) ⟨log.sentinel, log.entries ++ [e]⟩ := by
  obtain ⟨covered, hload, hc⟩ := h
  refine ⟨covered, ?_, hc⟩
  rw [loadEntries, replay_append hload, replay, replayRecord]
  have hok : ¬ (nextIndex (covered ++ log.entries) ≠ 0 ∧
      e.index ≠ nextIndex (covered ++ log.entries)) := by
    rcases nextIndex_leftover hn hc with h0 | h1 <;> omega
  rw [if_neg hok]
  simp [replay]

theorem Replays.append {wal : List WalRecord} {log : RaftLog} (h : Replays wal log)
    (hn : log.Numbered) {new : List LogEntry} (hc : Consecutive log.lastLogIndex new) :
    Replays (wal ++ new.map .append) ⟨log.sentinel, log.entries ++ new⟩ := by
  induction new generalizing wal log with
  | nil => simpa using h
  | cons e es ih =>
    obtain ⟨he, hes⟩ := hc
    have hone := h.append_one hn he
    have hn' : RaftLog.Numbered ⟨log.sentinel, log.entries ++ [e]⟩ :=
      hn.append ⟨he, trivial⟩
    have hlast : RaftLog.lastLogIndex ⟨log.sentinel, log.entries ++ [e]⟩ =
        log.lastLogIndex + 1 := by
      rw [hn'.lastLogIndex_eq, hn.lastLogIndex_eq]
      simp [RaftLog.base]
      omega
    have := ih hone hn' (by rw [hlast]; exact hes)
    simpa [List.append_assoc] using this

theorem rdropWhile_append_of_all {α : Type} {p : α → Bool} {a b : List α}
    (h : ∀ x ∈ b, p x = true) : (a ++ b).rdropWhile p = a.rdropWhile p := by
  induction b using List.reverseRecOn with
  | nil => simp
  | append_singleton xs x ih =>
    rw [← List.append_assoc, List.rdropWhile_concat_pos _ _ _ (h x (by simp))]
    exact ih fun y hy => h y (by simp [hy])

/-- A truncate record above the boundary cuts exactly the log's own suffix. -/
theorem Replays.truncate {wal : List WalRecord} {log : RaftLog} (h : Replays wal log)
    (hn : log.Numbered) {start : ℕ} (hs : log.base < start) :
    Replays (wal ++ [.truncate start])
      ⟨log.sentinel, log.entries.take (start - log.base - 1)⟩ := by
  obtain ⟨covered, hload, hc⟩ := h
  refine ⟨covered, ?_, hc⟩
  rw [loadEntries, replay_append hload, replay, replayRecord, if_neg (by omega)]
  simp only [replay, Except.ok.injEq]
  have hsplit : covered ++ log.entries = (covered ++ log.entries.take (start - log.base - 1)) ++
      log.entries.drop (start - log.base - 1) := by
    rw [List.append_assoc, List.take_append_drop]
  rw [hsplit, rdropWhile_append_of_all, List.rdropWhile_eq_self_iff]
  · intro hne
    have hmem := List.getLast_mem hne
    have hlt : ((covered ++ log.entries.take (start - log.base - 1)).getLast hne).index < start := by
      rcases List.mem_append.mp hmem with hm | hm
      · exact (hc.le_base _ hm).trans_lt hs
      · have hb := (hn.take (start - log.base - 1)).index_bounds hm
        rw [List.length_take] at hb
        omega
    simp only [decide_eq_true_eq]
    omega
  · intro e he
    obtain ⟨k, hk⟩ := List.mem_iff_getElem?.mp he
    rw [List.getElem?_drop] at hk
    have := hn.index_eq hk
    simp only [decide_eq_true_eq]
    omega

theorem Replays.compact {log : RaftLog} (hn : log.Numbered) :
    Replays (log.entries.map .append) log := by
  have hempty : Replays [] ⟨log.sentinel, []⟩ := ⟨[], rfl, leftover_nil _⟩
  have hlast : RaftLog.lastLogIndex ⟨log.sentinel, []⟩ = log.base := rfl
  simpa using hempty.append trivial (hlast ▸ hn)

theorem Replays.advance {wal : List WalRecord} {log : RaftLog} (h : Replays wal log)
    (hn : log.Numbered) {sentinel : LogEntry} (hb : log.base ≤ sentinel.index)
    (hl : sentinel.index ≤ log.lastLogIndex) :
    Replays wal ⟨sentinel, log.entries.drop (sentinel.index - log.base)⟩ := by
  obtain ⟨covered, hload, hc⟩ := h
  rw [hn.lastLogIndex_eq] at hl
  obtain ⟨k, hk⟩ : ∃ k, sentinel.index = log.base + k := ⟨_, (Nat.add_sub_cancel' hb).symm⟩
  have hlen : (log.entries.take k).length = k := by
    rw [List.length_take]
    omega
  rw [hk, Nat.add_sub_cancel_left]
  refine ⟨covered ++ log.entries.take k, ?_, ?_, ?_⟩
  · rw [hload, List.append_assoc, List.take_append_drop]
  · intro e he
    change e.index ≤ sentinel.index
    rcases List.mem_append.mp he with hm | hm
    · exact (hc.le_base e hm).trans hb
    · have := (hn.take k).index_bounds hm
      omega
  · intro e he
    change e.index = sentinel.index
    rw [List.getLast?_append] at he
    cases hlast : (log.entries.take k).getLast? with
    | some x =>
      rw [hlast, Option.some_or, Option.some.injEq] at he
      rw [← he, (hn.take k).last_index hlast, hlen, hk]
    | none =>
      rw [hlast, Option.none_or] at he
      rw [List.getLast?_eq_none_iff] at hlast
      rw [hc.ends e he]
      rw [hlast] at hlen
      simp only [List.length_nil] at hlen
      omega

theorem Replays.of_empty {wal : List WalRecord} (h : loadEntries wal = .ok [])
    (sentinel : LogEntry) : Replays wal ⟨sentinel, []⟩ :=
  ⟨[], h, leftover_nil _⟩

theorem recoverEntries_covered {base : ℕ} {covered : List LogEntry}
    (h : ∀ e ∈ covered, e.index ≤ base) (want : ℕ) (es : List LogEntry) :
    recoverEntries base want (covered ++ es) = recoverEntries base want es := by
  induction covered with
  | nil => rfl
  | cons e cs ih =>
    rw [List.cons_append, recoverEntries, if_pos (h e (by simp))]
    exact ih fun x hx => h x (by simp [hx])

theorem recoverEntries_consecutive {base n : ℕ} {es : List LogEntry} (hb : base ≤ n)
    (h : Consecutive n es) : recoverEntries base (n + 1) es = .ok es := by
  induction es generalizing n with
  | nil => rfl
  | cons e es ih =>
    obtain ⟨he, hes⟩ := h
    rw [recoverEntries, if_neg (by omega), if_neg (by omega), ih (by omega) hes]

theorem recoverEntries_ok {base n : ℕ} {es rest : List LogEntry} (hb : base ≤ n)
    (h : recoverEntries base (n + 1) es = .ok rest) :
    Consecutive n rest ∧ rest = es.filter fun e => base < e.index := by
  induction es generalizing n rest with
  | nil =>
    cases h
    exact ⟨trivial, rfl⟩
  | cons e es ih =>
    rw [recoverEntries] at h
    by_cases hle : e.index ≤ base
    · rw [if_pos hle] at h
      obtain ⟨hc, hf⟩ := ih hb h
      exact ⟨hc, by simp [hf, not_lt.mpr hle]⟩
    rw [if_neg hle] at h
    by_cases hwant : e.index = n + 1
    · rw [if_neg (not_not.mpr hwant)] at h
      cases htail : recoverEntries base (n + 1 + 1) es with
      | error err =>
        rw [htail] at h
        cases h
      | ok tail =>
        rw [htail] at h
        cases h
        obtain ⟨hc, hf⟩ := ih (by omega) htail
        exact ⟨⟨hwant, hc⟩, by simp [← hf, not_le.mp hle]⟩
    · rw [if_pos hwant] at h
      cases h

theorem Replays.recoverEntries_eq {wal : List WalRecord} {log : RaftLog} (h : Replays wal log)
    (hn : log.Numbered) : ∃ loaded, loadEntries wal = .ok loaded ∧
      recoverEntries log.sentinel.index (log.sentinel.index + 1) loaded = .ok log.entries := by
  obtain ⟨covered, hload, hc⟩ := h
  refine ⟨_, hload, ?_⟩
  change recoverEntries log.base (log.base + 1) _ = _
  rw [recoverEntries_covered hc.le_base]
  exact recoverEntries_consecutive le_rfl hn

theorem newNode_ok {D : Type} {cfg : Config} {disk : Disk D} {rn : RaftNode D}
    (h : newNode cfg disk = .ok rn) :
    checkConfig cfg.withDefaults = none ∧ rn.log.sentinel = boundary disk.snapshot ∧
      ∃ loaded, loadEntries disk.wal = .ok loaded ∧
        recoverEntries rn.log.base (rn.log.base + 1) loaded = .ok rn.log.entries := by
  obtain ⟨hcfg, loaded, entries, hload, hrec, rfl⟩ := newNodeFrom_ok.mp h
  exact ⟨hcfg, rfl, loaded, hload, hrec⟩

theorem newNode_log {D : Type} {cfg : Config} {disk : Disk D}
    (hcfg : checkConfig cfg.withDefaults = none)
    {es rest : List LogEntry} (hload : loadEntries disk.wal = .ok es)
    (hrec : recoverEntries (boundary disk.snapshot).index ((boundary disk.snapshot).index + 1) es =
      .ok rest) :
    ∃ back, newNode cfg disk = .ok back ∧ back.log = ⟨boundary disk.snapshot, rest⟩ :=
  ⟨_, newNodeFrom_ok.mpr ⟨hcfg, es, rest, hload, hrec, rfl⟩, rfl⟩

section Uint64

variable {D : Type} {es es' : List LogEntry} {wal : List WalRecord}

/-- The replay of records with indices of the type does not notice the wrap-around: behind the
largest index it accepts no further record. -/
theorem replayRecordUint64_ok {r : WalRecord} (hr : ∀ e, r = .append e → e.index < UInt64.size)
    (h : replayRecord es r = .ok es') : replayRecordUint64 es r = .ok es' := by
  cases r with
  | append e =>
    rw [replayRecord] at h
    rw [replayRecordUint64, nextIndexUint64]
    have hlt := hr e rfl
    by_cases hwant : nextIndex es ≠ 0 ∧ e.index ≠ nextIndex es
    · rw [if_pos hwant] at h
      cases h
    · rw [if_neg hwant] at h
      rw [if_neg, h]
      rintro ⟨hne, hidx⟩
      have hnext : e.index = nextIndex es := by
        by_contra hcon
        exact hwant ⟨fun h0 => hne (by rw [h0, Nat.zero_mod]), hcon⟩
      rw [← hnext, Nat.mod_eq_of_lt hlt] at hidx
      exact hidx rfl
  | truncate start => exact h
  | unknown type => exact h

theorem foldlM_replayRecordUint64_ok (hwal : ∀ e, .append e ∈ wal → e.index < UInt64.size)
    (h : replay es wal = .ok es') : wal.foldlM replayRecordUint64 es = .ok es' := by
  induction wal generalizing es with
  | nil => exact h
  | cons r rs ih =>
    rw [replay] at h
    split at h
    · cases h
    rename_i mid hmid
    rw [List.foldlM_cons, replayRecordUint64_ok (fun e he => hwal e (by simp [he])) hmid]
    exact ih (fun e he => hwal e (List.mem_cons_of_mem r he)) h

theorem recoverEntriesUint64_ok {base want : ℕ} (hes : ∀ e ∈ es, e.index < UInt64.size)
    (h : recoverEntries base want es = .ok es') :
    recoverEntriesUint64 base (want % UInt64.size) es = .ok es' := by
  induction es generalizing want es' with
  | nil => exact h
  | cons e es ih =>
    have htail : ∀ x ∈ es, x.index < UInt64.size := fun x hx => hes x (List.mem_cons_of_mem e hx)
    rw [recoverEntries] at h
    rw [recoverEntriesUint64]
    by_cases hle : e.index ≤ base
    · rw [if_pos hle] at h ⊢
      exact ih htail h
    rw [if_neg hle] at h ⊢
    by_cases hwant : e.index = want
    · have hmod : want % UInt64.size = want :=
        Nat.mod_eq_of_lt (hwant ▸ hes e List.mem_cons_self)
      rw [if_neg (not_not.mpr hwant)] at h
      rw [hmod, if_neg (not_not.mpr hwant)]
      cases hrec : recoverEntries base (want + 1) es with
      | error err =>
        rw [hrec] at h
        cases h
      | ok rest =>
        rw [hrec] at h
        rw [ih htail hrec]
        exact h
    · rw [if_pos hwant] at h
      cases h

def Disk.Uint64 (disk : Disk D) : Prop := ∀ e, .append e ∈ disk.wal → e.index < UInt64.size

theorem newNodeUint64_of_newNode {cfg : Config} {disk : Disk D} {rn : RaftNode D}
    (hd : disk.Uint64) (h : newNode cfg disk = .ok rn) : newNodeUint64 cfg disk = .ok rn := by
  obtain ⟨hcfg, loaded, entries, hload, hrec, rfl⟩ := newNodeFrom_ok.mp h
  refine newNodeFrom_ok.mpr ⟨hcfg, loaded, entries, foldlM_replayRecordUint64_ok hd hload, ?_, rfl⟩
  refine recoverEntriesUint64_ok (fun e he => ?_) hrec
  rcases mem_replay hload he with hnil | hmem
  · cases hnil
  · exact hd e hmem

end Uint64

theorem newNode_of_replays {D : Type} {cfg : Config} {disk : Disk D} {log : RaftLog}
    (hcfg : checkConfig cfg.withDefaults = none) (hs : boundary disk.snapshot = log.sentinel)
    (hr : Replays disk.wal log) (hn : log.Numbered) :
    ∃ back, newNode cfg disk = .ok back ∧ back.log = log := by
  obtain ⟨loaded, hload, hrec⟩ := hr.recoverEntries_eq hn
  rw [← hs] at hrec
  obtain ⟨back, hback, hlog⟩ := newNode_log hcfg hload hrec
  exact ⟨back, hback, by rw [hlog, hs]⟩

/-- What a node must not forget. The entries are numbered from the boundary on. -/
structure Durable where
  currentTerm : ℕ
  votedFor : NodeId
  log : RaftLog
  numbered : log.Numbered

/-- The files hold the term, the vote, the boundary and the entries. -/
structure Mirrors {D : Type} (disk : Disk D) (d : Durable) : Prop where
  hardState : disk.hardState.getD ⟨0, None⟩ = ⟨d.currentTerm, d.votedFor⟩
  sentinel : boundary disk.snapshot = d.log.sentinel
  wal : Replays disk.wal d.log

def Durable.fresh : Durable := ⟨0, None, ⟨⟨0, 0, []⟩, []⟩, trivial⟩

theorem mirrors_empty {D : Type} : Mirrors (Disk.empty : Disk D) Durable.fresh :=
  ⟨rfl, rfl, Replays.of_empty rfl _⟩

def recovered {D : Type} (cfg : Config) (disk : Disk D) (d : Durable) : RaftNode D where
  cfg := cfg.withDefaults
  currentTerm := d.currentTerm
  votedFor := d.votedFor
  log := d.log
  commitIndex := d.log.base
  lastApplied := d.log.base
  nextIndex := fun _ => 0
  matchIndex := fun _ => 0
  state := .follower
  leaderID := None
  votes := 0
  pendingSnapshot := none
  initialSnapshotData := disk.snapshot.map Snapshot.data
  started := false
  stopped := false

theorem Mirrors.newNode_eq {D : Type} {disk : Disk D} {d : Durable} (h : Mirrors disk d)
    {cfg : Config} (hcfg : checkConfig cfg.withDefaults = none) :
    newNode cfg disk = .ok (recovered cfg disk d) := by
  obtain ⟨loaded, hload, hrec⟩ := h.wal.recoverEntries_eq d.numbered
  rw [← h.sentinel] at hrec
  refine newNodeFrom_ok.mpr ⟨hcfg, loaded, _, hload, hrec, ?_⟩
  simp only [recovered, loadedNode, h.sentinel, h.hardState]
  rfl

theorem Mirrors.newNodeUint64_eq {D : Type} {cfg : Config} {disk : Disk D} {d : Durable} (h : Mirrors disk d) (hd : disk.Uint64)
    (hcfg : checkConfig cfg.withDefaults = none) :
    newNodeUint64 cfg disk = .ok (recovered cfg disk d) :=
  newNodeUint64_of_newNode hd (h.newNode_eq hcfg)

end Storage
